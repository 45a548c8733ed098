import Ircd.NickForms
import Ircd.ServerTreeRuns

/-!
Runs of a server in which the NICK lines of other servers have one of the two forms.

`Tame` says what a step may do to the users of other servers: their nick is replaced by a
valid one, or they exit. Every step but NICK and UID is tame, and these bring in clients
that are fully introduced, so that every user of another server is one.
-/

namespace Ircd

open Function

variable {cf : ServerConfig} {w v u : World} {client source c d target : Cid} {parv : List CStr}
  {x y z : Client}

/-! ### The users of other servers -/

/-- What a change of a client record keeps: a connection is its own direction, and a user
of another server keeps all but its nick, which stays valid. -/
structure TameRecord (cf : ServerConfig) (c : Cid) (y x : Client) : Prop where
  direct : x.isDead = false → x.myConnect = true →
    x.from = c ∨ (y.isDead = false ∧ y.myConnect = true ∧ x.from = y.from)
  user : x.isDead = false → x.myConnect = false → x.isServer = false →
    y.isDead = false ∧ y.myConnect = false ∧ x.status = y.status ∧ x.username = y.username ∧
      x.host = y.host ∧ x.servptr = y.servptr ∧ (x.name = y.name ∨ ValidNick cf x.name)

theorem TameRecord.trans (h : TameRecord cf c z y) (h' : TameRecord cf c y x) :
    TameRecord cf c z x where
  direct hlive hconn := by
    rcases h'.direct hlive hconn with hself | ⟨hy, hyconn, hfrom⟩
    · exact .inl hself
    · rw [hfrom]
      exact h.direct hy hyconn
  user hlive hconn hserver := by
    obtain ⟨hy, hyconn, hstatus, huser, hhost, hserv, hname⟩ := h'.user hlive hconn hserver
    have hyserver : y.isServer = false := by
      rwa [Client.isServer, ← hstatus]
    obtain ⟨hz, hzconn, hstatus', huser', hhost', hserv', hname'⟩ := h.user hy hyconn hyserver
    refine ⟨hz, hzconn, hstatus.trans hstatus', huser.trans huser', hhost.trans hhost',
      hserv.trans hserv', ?_⟩
    rcases hname with heq | hvalid
    · rw [heq]
      exact hname'
    · exact .inr hvalid

theorem TameRecord.of_flags (fl : Finset Flag) (modes : Finset UMode) (h : x.flags ⊆ fl) :
    TameRecord cf c x { x with flags := fl, umodes := modes } := by
  have hlive : ({ x with flags := fl, umodes := modes } : Client).isDead = false →
      x.isDead = false := by
    simp only [Client.isDead, decide_eq_false_iff_not]
    exact fun hd hx => hd (h hx)
  exact ⟨fun hl hc => .inr ⟨hlive hl, hc, rfl⟩,
    fun hl hc _ => ⟨hlive hl, hc, rfl, rfl, rfl, rfl, .inl rfl⟩⟩

theorem TameRecord.refl (x : Client) : TameRecord cf c x x :=
  .of_flags x.flags x.umodes (Finset.Subset.refl _)

theorem TameRecord.of_local (hconn : x.myConnect = true) (hdead : x.isDead = false →
    y.isDead = false) (hold : y.myConnect = true) (hfrom : x.from = y.from) :
    TameRecord cf c y x :=
  ⟨fun hl _ => .inr ⟨hdead hl, hold, hfrom⟩, fun _ hc => by rw [hconn] at hc; cases hc⟩

/-- What a step keeps of all clients. -/
def Tame (cf : ServerConfig) (w v : World) : Prop :=
  ∀ c, TameRecord cf c (w.clients c) (v.clients c)

theorem Tame.refl (w : World) : Tame cf w w := fun c => .refl (w.clients c)

theorem Tame.trans (h : Tame cf w v) (h' : Tame cf v u) : Tame cf w u :=
  fun c => (h c).trans (h' c)

theorem Tame.of_clients (h : v.clients = w.clients) : Tame cf w v :=
  fun c => by rw [h]; exact .refl _

theorem OnlyExits.tame (h : OnlyExits w v) : Tame cf w v := by
  intro c
  obtain ⟨fl, hv, hfl⟩ := h.record c
  rw [hv]
  exact .of_flags fl (w.clients c).umodes hfl

theorem SameButModes.tame (h : SameButModes c w v) : Tame cf w v := by
  intro d
  by_cases hd : d = c
  · subst hd
    obtain ⟨modes, hself⟩ := h.self
    rw [hself]
    exact .of_flags (w.clients d).flags modes (Finset.Subset.refl _)
  · rw [h.of_ne hd]
    exact .refl _

/-! ### Connections -/

/-- From one state to the other only the connection `c` changed, and it stayed one. -/
structure OnlyLocal (c : Cid) (w v : World) : Prop where
  others : ∀ d, d ≠ c → v.clients d = w.clients d
  conn : (v.clients c).myConnect = (w.clients c).myConnect
  «from» : (v.clients c).from = (w.clients c).from
  flags : (v.clients c).flags = (w.clients c).flags

theorem OnlyLocal.trans (h : OnlyLocal c w v) (h' : OnlyLocal c v u) : OnlyLocal c w u where
  others d hd := (h'.others d hd).trans (h.others d hd)
  conn := h'.conn.trans h.conn
  «from» := h'.from.trans h.from
  flags := h'.flags.trans h.flags

theorem OnlyLocal.of_clients (h : v.clients = w.clients) : OnlyLocal c w v :=
  ⟨fun d _ => by rw [h], by rw [h], by rw [h], by rw [h]⟩

theorem OnlyLocal.onClient (c : Cid) (w : World) {f : Client → Client}
    (hkeep : ∀ x : Client, (f x).myConnect = x.myConnect ∧ (f x).from = x.from ∧
      (f x).flags = x.flags) : OnlyLocal c w (w.onClient c f) := by
  have hself : (w.onClient c f).clients c = f (w.clients c) := by simp [World.onClient]
  obtain ⟨hconn, hfrom, hflags⟩ := hkeep (w.clients c)
  exact ⟨fun d hd => by simp [World.onClient, update_of_ne hd], by rw [hself, hconn],
    by rw [hself, hfrom], by rw [hself, hflags]⟩

theorem OnlyLocal.rename (c : Cid) (w : World) (nick : CStr) : OnlyLocal c w (w.rename c nick) := by
  have hself := rename_self c w nick
  exact ⟨(onlyOne_rename c w nick).others, by rw [hself]; rfl, by rw [hself], by rw [hself]⟩

theorem OnlyLocal.tame (h : OnlyLocal c w v) (hconn : (w.clients c).myConnect = true) :
    Tame cf w v := by
  intro d
  by_cases hd : d = c
  · subst hd
    refine .of_local (h.conn.trans hconn) (fun hl => ?_) hconn h.from
    rwa [Client.isDead, ← h.flags]
  · rw [h.others d hd]
    exact .refl _

/-! ### Local users -/

theorem OnlyExits.conn (h : OnlyExits w v) (c : Cid) :
    (v.clients c).myConnect = (w.clients c).myConnect := by
  obtain ⟨fl, hv, -⟩ := h.record c
  rw [hv]
  rfl

theorem tame_setInitialNick (hconn : (w.clients source).myConnect = true) (nick : CStr) :
    Tame cf w (w.setInitialNick source nick) := by
  have hstamp : OnlyLocal source w
      (w.onClient source fun x => { x with tsinfo := w.currentTime }) :=
    .onClient source w (by exact fun _ => ⟨rfl, rfl, rfl⟩)
  exact (hstamp.trans (.rename source _ _)).tame hconn

theorem tame_changeLocalNick (hconn : (w.clients source).myConnect = true) (nick : CStr) :
    Tame cf w (w.changeLocalNick cf source nick) := by
  set after := changeLocalNickFields cf.toConfig w.currentTime (w.clients source) nick with hafter
  have hkept : after.localClient.isSome = true :=
    (myConnect_changeLocalNickFields cf.toConfig w.currentTime (w.clients source) nick).trans hconn
  have hset : ∀ ts : Int, OnlyLocal source w
      (w.onClient source fun x => { x with localClient := after.localClient, tsinfo := ts }) := by
    intro ts
    have hself : (w.onClient source fun x =>
        { x with localClient := after.localClient, tsinfo := ts }).clients source =
        { w.clients source with localClient := after.localClient, tsinfo := ts } := by
      simp [World.onClient]
    refine ⟨fun d hd => by simp [World.onClient, update_of_ne hd], ?_, ?_, ?_⟩
    · rw [hself, hconn]
      exact hkept
    · rw [hself]
    · rw [hself]
  unfold World.changeLocalNick
  dsimp only
  rw [← hafter]
  split_ifs
  · exact ((hset after.tsinfo).trans (.rename source _ nick)).tame hconn
  · have hcount := hset (w.clients source).tsinfo
    have hsame : (w.onClient source fun x => { x with localClient := after.localClient }) =
        w.onClient source fun x =>
          { x with localClient := after.localClient, tsinfo := (w.clients source).tsinfo } := by
      simp [World.onClient]
    rw [hsame]
    exact hcount.tame hconn

theorem tame_mrNick (hconn : (w.clients source).myConnect = true) (newnick : CStr) :
    Tame cf w (w.mrNick cf source newnick) := by
  unfold World.mrNick
  dsimp only
  split_ifs
  · exact .refl w
  · exact .refl w
  · split
    · exact tame_setInitialNick hconn _
    · split_ifs
      · exact OnlyLocal.tame (.onClient source w (by exact fun _ => ⟨rfl, rfl, rfl⟩)) hconn
      · exact .refl w

theorem tame_mNick (hconn : (w.clients source).myConnect = true) (newnick : CStr) :
    Tame cf w (w.mNick cf source newnick) := by
  unfold World.mNick
  dsimp only
  split_ifs
  · exact .refl w
  · exact .refl w
  · split
    · exact tame_changeLocalNick hconn _
    · rename_i target _
      have hexit := onlyExits_exitClient w target
      split_ifs
      · exact .refl w
      · exact tame_changeLocalNick hconn _
      · exact hexit.tame.trans (tame_changeLocalNick ((hexit.conn source).trans hconn) _)
      · exact .refl w

theorem onlyLocal_giveId (c : Cid) (w : World) (id : CStr) : OnlyLocal c w (w.giveId c id) := by
  unfold World.giveId
  split_ifs
  · have hset : OnlyLocal c w (w.onClient c fun x => { x with id := strlcpy id (IDLEN + 1) }) :=
      .onClient c w (by exact fun _ => ⟨rfl, rfl, rfl⟩)
    exact hset.trans (.of_clients rfl)
  · exact .of_clients rfl

theorem onlyLocal_admitLocalUser (c : Cid) (w : World) :
    OnlyLocal c w (w.admitLocalUser cf c) := by
  have hmode : OnlyLocal c w (if cf.invisibleOnConnect then
      w.onClient c fun x => { x with umodes := insert .invisible x.umodes } else w) := by
    split_ifs
    · exact .onClient c w (by exact fun _ => ⟨rfl, rfl, rfl⟩)
    · exact .of_clients rfl
  unfold World.admitLocalUser
  set v := if cf.invisibleOnConnect then
      w.onClient c fun x => { x with umodes := insert .invisible x.umodes } else w
  have hstatus : OnlyLocal c v (v.onClient c fun x => { x with status := .client, servptr := me }) :=
    .onClient c v (by exact fun _ => ⟨rfl, rfl, rfl⟩)
  exact (hmode.trans hstatus).trans (.of_clients rfl)

theorem tame_registerLocalUser (hconn : (w.clients source).myConnect = true) (ad : Admission) :
    Tame cf w (w.registerLocalUser cf source ad) := by
  cases ad with
  | wait => exact .refl w
  | reject => exact (onlyExits_exitClient w source).tame
  | broken id => exact (onlyLocal_giveId source w id).tame hconn
  | allow username host id =>
    have hnames : OnlyLocal source w
        (w.onClient source fun x => { x with username := username, host := host }) :=
      .onClient source w (by exact fun _ => ⟨rfl, rfl, rfl⟩)
    exact ((hnames.trans (onlyLocal_giveId source _ id)).trans
      (onlyLocal_admitLocalUser source _)).tame hconn

/-! ### Modes -/

theorem sameButModes_operList (c : Cid) (w : World) (l : List Cid) :
    SameButModes c w { w with operList := l } :=
  ⟨⟨(w.clients c).umodes, (update_eq_self c _).symm⟩, rfl, rfl, rfl, rfl, rfl, rfl, rfl,
    rfl⟩

theorem sameButModes_userModeChar (source : Cid) (st : Bool × World) (m : Char) :
    SameButModes source st.2 (World.userModeChar cf source st m).2 := by
  obtain ⟨what, w⟩ := st
  have hmodes := sameButModes_umodes source w
  unfold World.userModeChar
  dsimp only
  by_cases hplus : m = '+'
  · rw [if_pos hplus]
    exact .refl source w
  rw [if_neg hplus]
  by_cases hminus : m = '-'
  · rw [if_pos hminus]
    exact .refl source w
  rw [if_neg hminus]
  by_cases hoper : m = 'o'
  · rw [if_pos hoper]
    have hcut := (hmodes fun s => (s \ {.oper, .admin}) \ cf.operOnlyUmodes).trans
      (sameButModes_onCount source _ fun n => { n with oper := n.oper - 1 })
    split_ifs
    · exact (sameButModes_onCount source w _).trans (sameButModes_umodes source _ (insert .oper))
    · exact .refl source w
    · exact .refl source w
    · exact hcut.trans (sameButModes_operList source _ _)
    · exact hcut
  rw [if_neg hoper]
  split
  · exact .refl source w
  · split
    · exact .refl source w
    · rename_i flag _
      split
      · exact .refl source w
      · exact hmodes fun s => if what then insert flag s else s.erase flag

theorem sameButModes_setUserMode (source : Cid) (w : World) (privs : OperPrivs) (modes : CStr) :
    SameButModes source w (w.setUserMode cf source privs modes) := by
  have hfold : ∀ (st : Bool × World),
      SameButModes source st.2 (modes.foldl (World.userModeChar cf source) st).2 := by
    induction modes with
    | nil => exact fun st => .refl source st.2
    | cons m ms ih => exact fun st => (sameButModes_userModeChar source st m).trans (ih _)
  have hkept : ∀ (u : World) (p : Prop) [Decidable p] (f : World → World),
      (∀ v, SameButModes source v (f v)) → SameButModes source w u →
        SameButModes source w (if p then f u else u) := by
    intro u p _ f hf hu
    split_ifs
    · exact hu.trans (hf u)
    · exact hu
  have hcut : ∀ (m : UMode) (u : World), SameButModes source u
      (u.onClient source fun x => { x with umodes := x.umodes.erase m }) :=
    fun m u => sameButModes_umodes source u fun s => s.erase m
  unfold World.setUserMode
  dsimp only
  apply hkept _ _ (fun u => u.onCount _) fun u => sameButModes_onCount source u _
  apply hkept _ _ (fun u => u.onCount _) fun u => sameButModes_onCount source u _
  apply hkept _ _ _ (hcut .admin)
  split_ifs
  · exact hfold (true, w)
  · exact (hfold (true, w)).trans (hcut .nchange _)

theorem sameButModes_operUp (source : Cid) (w : World) (privs : OperPrivs) :
    SameButModes source w (w.operUp cf source privs) := by
  have hset := sameButModes_umodes source
  have hup := (((hset w (insert .oper)).trans (hset _ fun s => s ∪
    (if cf.operUmodes = ∅ then defaultOperUmodes else cf.operUmodes))).trans
      (sameButModes_onCount source _ fun n => { n with oper := n.oper + 1 })).trans
        (sameButModes_operList source _ (source :: w.operList))
  unfold World.operUp
  dsimp only
  generalize (if cf.operUmodes = ∅ then defaultOperUmodes else cf.operUmodes) = base at hup ⊢
  split_ifs
  · exact hup.trans (hset _ (insert .admin))
  · exact hup
  · exact (hup.trans (hset _ (insert .admin))).trans (hset _ fun s => s.erase .nchange)
  · exact hup.trans (hset _ fun s => s.erase .nchange)

/-! ### Servers -/

theorem tame_mrServer (hconn : (w.clients client).myConnect = true) (name id : CStr) :
    Tame cf w (w.mrServer client name id) := by
  have hset : ∀ u : World, OnlyLocal client u (u.serverEstab client) := by
    intro u
    have hid : OnlyLocal client u
        (if (u.clients client).hasID then u.hashAddId client else u) := by
      split_ifs <;> exact .of_clients rfl
    unfold World.serverEstab
    set v := if (u.clients client).hasID then u.hashAddId client else u
    have hserv : OnlyLocal client v (v.onClient client fun x => { x with servptr := me }) :=
      .onClient client v (by exact fun _ => ⟨rfl, rfl, rfl⟩)
    have hstatus : OnlyLocal client (v.onClient client fun x => { x with servptr := me })
        ((v.onClient client fun x => { x with servptr := me }).onClient client
          fun x => { x with status := .server }) :=
      .onClient client _ (by exact fun _ => ⟨rfl, rfl, rfl⟩)
    exact ((hid.trans hserv).trans hstatus).trans (.of_clients rfl)
  have hid : OnlyLocal client w
      (w.onClient client fun x => { x with id := strlcpy id (IDLEN + 1) }) :=
    .onClient client w (by exact fun _ => ⟨rfl, rfl, rfl⟩)
  unfold World.mrServer
  dsimp only
  split_ifs
  · exact (onlyExits_exitClient w client).tame
  · exact (hid.tame hconn).trans (onlyExits_exitClient _ client).tame
  · set v := w.onClient client fun x => { x with id := strlcpy id (IDLEN + 1) }
    have hname : OnlyLocal client v
        (v.onClient client fun x => { x with name := strlcpy name (HOSTLEN + 1) }) :=
      .onClient client v (by exact fun _ => ⟨rfl, rfl, rfl⟩)
    exact ((hid.trans hname).trans (hset _)).tame hconn

theorem tame_addServer (w : World) (client source : Cid) (name id : CStr) :
    Tame cf w (w.addServer client source name id) := by
  intro d
  have hcl : (w.addServer client source name id).clients = update w.clients w.next
      { (default : Client) with
        username := "unknown".toList, «from» := client, name := strlcpy name (HOSTLEN + 1)
        id := strlcpy id (IDLEN + 1), servptr := source, status := .server } := by
    unfold World.addServer
    split_ifs <;>
      simp [World.makeServer, World.makeClient, World.onClient, World.onServ, World.hashAddClient,
        World.hashAddId]
  rw [hcl]
  by_cases hd : d = w.next
  · rw [hd, update_self]
    constructor
    · intro _ hconn
      cases hconn
    · intro _ _ hserver
      cases hserver
  · rw [update_of_ne hd]
    exact .refl _

theorem tame_introduceServer (w : World) (client source : Cid) (name id info : CStr) :
    Tame cf w (w.introduceServer cf client source name id info) := by
  unfold World.introduceServer
  split_ifs
  · exact (onlyExits_exitClient w client).tame
  · exact .refl w
  · exact (onlyExits_exitClient w source).tame
  · exact (onlyExits_exitClient w client).tame
  · exact tame_addServer w client source name id

theorem tame_msServer (w : World) (client source : Cid) (parv : List CStr) :
    Tame cf w (w.msServer cf client source parv) := by
  unfold World.msServer
  dsimp only
  split_ifs
  · exact .refl w
  · split
    · split_ifs
      · exact .refl w
      · exact (onlyExits_exitClient w client).tame
    · exact tame_introduceServer w client source _ _ _

theorem tame_msSid (w : World) (client source : Cid) (parv : List CStr) :
    Tame cf w (w.msSid cf client source parv) := by
  unfold World.msSid
  split_ifs
  · exact .refl w
  · exact (onlyExits_exitClient w client).tame
  · exact (onlyExits_exitClient w client).tame
  · exact tame_introduceServer w client source _ _ _

/-! ### Every user of another server -/

/-- The step is a NICK or UID line that introduces the client: it gives the user name, the
host and the server that the record `x` has. -/
def IntroducedBy (w : World) (op : Op) (c : Cid) (x : Client) : Prop :=
  ∃ client sender cmd params source,
    op = .message client sender cmd params ∧ (cmd = .nick ∨ cmd = .uid) ∧
      w.lineSource client sender = some source ∧
      x.username = strlcpy (param ((w.clients source).name :: params) 5) (USERLEN + 1) ∧
      x.host = strlcpy (param ((w.clients source).name :: params) 6) (HOSTLEN + 1) ∧
      ServerFound w c (introServer w source ((w.clients source).name :: params)) x.servptr

/-- One of the steps introduces the client. -/
def IntroducedIn (cf : ServerConfig) : World → List Op → Cid → Client → Prop
  | _, [], _, _ => False
  | w, op :: ops, c, x => IntroducedBy w op c x ∨ IntroducedIn cf (w.step cf op) ops c x

/-- NICK lines of other servers have one of the two forms, or no nick. -/
def CheckedForms (_ : World) : Op → Prop
  | .message _ _ .nick params => KnownForm ([] :: params)
  | _ => True

/-- A connection is its own direction, and every user of another server is registered
under a valid nick and has the property `P`. -/
structure Accounted (cf : ServerConfig) (P : Cid → Client → Prop) (w : World) : Prop where
  direct : ∀ c, (w.clients c).isDead = false → (w.clients c).myConnect = true →
    (w.clients c).from = c
  user : ∀ c, (w.clients c).isDead = false → (w.clients c).myConnect = false →
    (w.clients c).isServer = false →
      (w.clients c).isClient = true ∧ ValidNick cf (w.clients c).name ∧ P c (w.clients c)

/-- A property of the user name, the host and the server. -/
def OfIntroduction (P : Cid → Client → Prop) : Prop :=
  ∀ c (x y : Client), x.username = y.username → x.host = y.host → x.servptr = y.servptr →
    P c y → P c x

variable {P Q : Cid → Client → Prop}

theorem Accounted.tame (h : Accounted cf P w) (hP : OfIntroduction P) (htame : Tame cf w v) :
    Accounted cf P v where
  direct c hlive hconn := by
    rcases (htame c).direct hlive hconn with hself | ⟨hold, hwas, hfrom⟩
    · exact hself
    · rw [hfrom]
      exact h.direct c hold hwas
  user c hlive hconn hserver := by
    obtain ⟨hold, hwas, hstatus, huser, hhost, hserv, hname⟩ := (htame c).user hlive hconn hserver
    have hnot : (w.clients c).isServer = false := by
      rwa [Client.isServer, ← hstatus]
    obtain ⟨hclient, hvalid, hp⟩ := h.user c hold hwas hnot
    refine ⟨?_, ?_, hP c _ _ huser hhost hserv hp⟩
    · rwa [Client.isClient, hstatus]
    · rcases hname with heq | hnew
      · rwa [heq]
      · exact hnew

theorem Accounted.mono (h : Accounted cf P w) (hPQ : ∀ c x, P c x → Q c x) : Accounted cf Q w :=
  ⟨h.direct, fun c hlive hconn hserver =>
    (h.user c hlive hconn hserver).imp_right fun hr => hr.imp_right (hPQ c _)⟩

theorem Introduced.of_onlyExits {nick username host server : CStr} (h : OnlyExits w v)
    (hintro : Introduced v c nick username host server x) :
    Introduced w c nick username host server x :=
  ⟨hintro.status, hintro.name, hintro.username, hintro.host, hintro.server.of_onlyExits h⟩

theorem Accounted.outcome (h : Accounted cf P w) (hP : OfIntroduction P)
    (hout : NickOutcome cf source parv w v)
    (hQ : ∀ c x, Introduced w c (param parv 1) (param parv 5) (param parv 6)
      (introServer w source parv) x → Q c x) : Accounted cf (fun c x => P c x ∨ Q c x) v := by
  cases hout with
  | exits hexits => exact (h.tame hP hexits.tame).mono fun _ _ => .inl
  | changes u hexits hvalid _ hone hself =>
    obtain ⟨ts, hself⟩ := hself
    have hchange : Tame cf u v := by
      intro d
      by_cases hd : d = source
      · rw [hd, hself]
        exact ⟨fun hl hc => .inr ⟨hl, hc, rfl⟩,
          fun hl hc _ => ⟨hl, hc, rfl, rfl, rfl, rfl, .inr hvalid⟩⟩
      · rw [hone.others d hd]
        exact .refl _
    exact (h.tame hP (hexits.tame.trans hchange)).mono fun _ _ => .inl
  | comes u hexits hvalid hcomes =>
    have hu := h.tame hP hexits.tame
    constructor
    · intro c hlive hconn
      by_cases hc : c = u.next
      · rw [hc, hcomes.remote] at hconn
        cases hconn
      · rw [hcomes.one.others c hc] at hlive hconn ⊢
        exact hu.direct c hlive hconn
    · intro c hlive hconn hserver
      by_cases hc : c = u.next
      · subst hc
        rcases hcomes.settled with hdead | hintro
        · rw [hdead] at hlive
          cases hlive
        · refine ⟨?_, ?_, .inr (hQ _ _ (hintro.of_onlyExits hexits))⟩
          · rw [Client.isClient, hintro.status]
            rfl
          · rw [hintro.name]
            exact hvalid
      · rw [hcomes.one.others c hc] at hlive hconn hserver ⊢
        exact (hu.user c hlive hconn hserver).imp_right fun hr => hr.imp_right .inl

theorem ofIntroduction_introducedBy (w : World) (op : Op) : OfIntroduction (IntroducedBy w op) := by
  rintro c x y huser hhost hserv ⟨client, sender, cmd, params, source, hop, hcmd, hsource, h⟩
  rw [← huser, ← hhost, ← hserv] at h
  exact ⟨client, sender, cmd, params, source, hop, hcmd, hsource, h⟩

theorem ofIntroduction_introducedIn (cf : ServerConfig) (w : World) (ops : List Op) :
    OfIntroduction (IntroducedIn cf w ops) := by
  induction ops generalizing w with
  | nil => exact fun _ _ _ _ _ _ hfalse => hfalse
  | cons op ops ih =>
    intro c x y huser hhost hserv h
    exact h.imp (ofIntroduction_introducedBy w op c x y huser hhost hserv)
      (ih (w.step cf op) c x y huser hhost hserv)

theorem OfIntroduction.or (hP : OfIntroduction P) (hQ : OfIntroduction Q) :
    OfIntroduction fun c x => P c x ∨ Q c x :=
  fun c x y huser hhost hserv h =>
    h.imp (hP c x y huser hhost hserv) (hQ c x y huser hhost hserv)

theorem message_cases (cf : ServerConfig) (w : World) (client : Cid) (sender : CStr)
    (cmd : ServerCommand) (params : List CStr) :
    w.step cf (.message client sender cmd params) = w ∨
      ∃ source, (w.clients client).isServer = true ∧ w.lineSource client sender = some source ∧
        w.step cf (.message client sender cmd params) =
          w.handleCommand cf client source cmd ((w.clients source).name :: params) := by
  simp only [World.step]
  split_ifs with hguard
  · exact .inl rfl
  · simp only [Bool.or_eq_true, not_or, Bool.not_eq_true, Bool.not_eq_false'] at hguard
    cases hsource : w.lineSource client sender with
    | none => exact .inl rfl
    | some source => exact .inr ⟨source, hguard.2, rfl, rfl⟩

variable (cf w source parv) in
theorem handleCommand_outcome {cmd : ServerCommand} (hcmd : cmd = .nick ∨ cmd = .uid)
    (hform : cmd = .nick → KnownForm parv) (client : Cid) :
    NickOutcome cf source parv w (w.handleCommand cf client source cmd parv) := by
  unfold World.handleCommand
  split_ifs with hshort
  · exact .exits (onlyExits_exitClient w client)
  · rcases hcmd with rfl | rfl
    · exact msNick_outcome (hform rfl) client
    · rw [ServerCommand.parameters] at hshort
      exact msUid_outcome (by omega) client

theorem Accounted.message (h : Accounted cf P w) (hP : OfIntroduction P) {client : Cid}
    {sender : CStr} {cmd : ServerCommand} {params : List CStr}
    (hform : CheckedForms w (.message client sender cmd params)) :
    Accounted cf (fun c x => P c x ∨ IntroducedBy w (.message client sender cmd params) c x)
      (w.step cf (.message client sender cmd params)) := by
  have htame : ∀ v, Tame cf w v →
      Accounted cf (fun c x => P c x ∨ IntroducedBy w (.message client sender cmd params) c x) v :=
    fun v ht => (h.tame hP ht).mono fun _ _ => .inl
  rcases message_cases cf w client sender cmd params with heq | ⟨source, -, hsource, heq⟩
  · rw [heq]
    exact htame w (.refl w)
  rw [heq]
  have hintro : cmd = .nick ∨ cmd = .uid →
      (cmd = .nick → KnownForm ((w.clients source).name :: params)) →
      Accounted cf (fun c x => P c x ∨ IntroducedBy w (.message client sender cmd params) c x)
        (w.handleCommand cf client source cmd ((w.clients source).name :: params)) := by
    intro hcmd hknown
    refine h.outcome hP (handleCommand_outcome _ _ _ _ hcmd hknown client) fun c x hx => ?_
    exact ⟨client, sender, cmd, params, source, rfl, hcmd, hsource, hx.username, hx.host, hx.server⟩
  have hserver : ∀ v, Tame cf w v →
      Tame cf w (if ((w.clients source).name :: params).length < cmd.parameters then
        w.exitClient client else v) := by
    intro v hv
    split_ifs
    · exact (onlyExits_exitClient w client).tame
    · exact hv
  cases cmd with
  | nick => exact hintro (.inl rfl) fun _ => hform
  | uid => exact hintro (.inr rfl) fun hnick => by cases hnick
  | server => exact htame _ (hserver _ (tame_msServer w client source _))
  | sid => exact htame _ (hserver _ (tame_msSid w client source _))

theorem Accounted.step (h : Accounted cf P w) (hP : OfIntroduction P) {op : Op}
    (hform : CheckedForms w op) :
    Accounted cf (fun c x => P c x ∨ IntroducedBy w op c x) (w.step cf op) := by
  have htame : Tame cf w (w.step cf op) →
      Accounted cf (fun c x => P c x ∨ IntroducedBy w op c x) (w.step cf op) :=
    fun ht => (h.tame hP ht).mono fun _ _ => .inl
  cases op with
  | tick now => exact htame (.of_clients rfl)
  | connect sockhost =>
    refine htame fun d => ?_
    by_cases hd : d = w.next
    · subst hd
      simp only [World.step, World.makeLocalClient, update_self]
      constructor
      · exact fun _ _ => .inl rfl
      · intro _ hconn
        cases hconn
    · simp only [World.step, World.makeLocalClient, update_of_ne hd]
      exact .refl _
  | link client name id =>
    apply htame
    simp only [World.step]
    split_ifs with hguard
    · simp only [Bool.and_eq_true] at hguard
      exact tame_mrServer hguard.1.1.1.2 name id
    · exact .refl w
  | nick source newnick =>
    apply htame
    simp only [World.step]
    split_ifs with hguard
    · exact .refl w
    · simp only [Bool.or_eq_true, not_or, Bool.not_eq_true, Bool.not_eq_false'] at hguard
      exact tame_mrNick hguard.2 newnick
    · simp only [Bool.or_eq_true, not_or, Bool.not_eq_true, Bool.not_eq_false'] at hguard
      exact tame_mNick hguard.2 newnick
    · exact .refl w
  | register source ad =>
    apply htame
    simp only [World.step]
    split_ifs with hguard
    · simp only [Bool.and_eq_true] at hguard
      exact tame_registerLocalUser hguard.1.1.1.2 ad
    · exact .refl w
  | message client sender cmd params => exact h.message hP hform
  | userMode source privs modes =>
    apply htame
    simp only [World.step]
    split_ifs
    · exact (sameButModes_setUserMode source w privs modes).tame
    · exact .refl w
  | oper source privs =>
    apply htame
    simp only [World.step]
    split_ifs
    · exact (sameButModes_operUp source w privs).tame
    · exact .refl w
  | kill target =>
    apply htame
    simp only [World.step]
    split_ifs
    · exact (onlyExits_killClient w target).tame
    · exact .refl w
  | exit target =>
    apply htame
    simp only [World.step]
    split_ifs
    · exact (onlyExits_exitClient w target).tame
    · exact .refl w

theorem Accounted.run (ops : List Op) (h : Accounted cf P w) (hP : OfIntroduction P)
    (hforms : Run.Guarded (World.step cf) CheckedForms w ops) :
    Accounted cf (fun c x => P c x ∨ IntroducedIn cf w ops c x)
      (Run.exec (World.step cf) w ops) := by
  induction ops generalizing w P with
  | nil => exact h.mono fun _ _ => .inl
  | cons op ops ih =>
    obtain ⟨hop, hrest⟩ := hforms
    have hnext := ih (h.step hP hop) (hP.or (ofIntroduction_introducedBy w op)) hrest
    exact hnext.mono fun c x => or_assoc.mp

variable (cf) in
theorem accounted_start (key : Nat) (self : Identity) :
    Accounted cf (fun _ _ => False) (World.start key self) := by
  constructor
  · intro c hlive _
    rw [World.start_clients] at hlive ⊢
    by_cases hc : c = me
    · rw [if_pos hc, hc]
      rfl
    · rw [if_neg hc] at hlive
      cases hlive
  · intro c hlive hconn
    rw [World.start_clients] at hlive hconn
    by_cases hc : c = me
    · rw [if_pos hc] at hconn
      cases hconn
    · rw [if_neg hc] at hlive
      cases hlive

/-- The message put the client into the table, or gave it another name. -/
def FiledBy (w v : World) (c : Cid) : Prop :=
  ∃ k, c ∈ v.clientTable k ∧ ¬ (c ∈ w.clientTable k ∧ (v.clients c).name = (w.clients c).name)

theorem Accounted.filed (h : Accounted cf P w) {client : Cid} {sender : CStr}
    {cmd : ServerCommand} {params : List CStr} (hcmd : cmd = .nick ∨ cmd = .uid)
    (hform : CheckedForms w (.message client sender cmd params))
    (hfiled : FiledBy w (w.step cf (.message client sender cmd params)) c)
    (hlive : ((w.step cf (.message client sender cmd params)).clients c).isDead = false) :
    ((w.step cf (.message client sender cmd params)).clients c).myConnect = false ∧
      ((w.step cf (.message client sender cmd params)).clients c).isServer = false := by
  obtain ⟨k, hmem, hnew⟩ := hfiled
  rcases message_cases cf w client sender cmd params with heq | ⟨source, hclient, hsource, heq⟩
  · rw [heq] at hmem hnew
    exact absurd ⟨hmem, rfl⟩ hnew
  have hout := handleCommand_outcome cf w source ((w.clients source).name :: params) hcmd
    (by rintro rfl; exact hform) client
  rw [← heq] at hout
  generalize w.step cf (.message client sender cmd params) = v at hmem hnew hlive hout ⊢
  cases hout with
  | exits hexits => exact absurd ⟨hexits.table k hmem, hexits.name c⟩ hnew
  | changes u hexits _ huser hone hself =>
    by_cases hc : c = source
    · subst hc
      obtain ⟨ts, hself⟩ := hself
      rw [hself] at hlive ⊢
      have hserver : (u.clients c).isServer = false := (hexits.isServer c).trans huser
      refine ⟨?_, hserver⟩
      -- a connection is the source of a line only if it is the link itself
      by_contra hconn
      rw [Bool.not_eq_false] at hconn
      obtain ⟨fl, hu, hfl⟩ := hexits.record c
      rw [hu] at hlive hconn
      have hold : (w.clients c).isDead = false := by
        rw [Client.isDead, decide_eq_false_iff_not] at hlive ⊢
        exact fun hdead => hlive (hfl hdead)
      have hfrom := h.direct c hold hconn
      simp only [World.lineSource, Option.filter_eq_some_iff, beq_iff_eq] at hsource
      rw [← hsource.2, hfrom] at hclient
      rw [hclient] at huser
      cases huser
    · refine absurd ⟨hexits.table k (hone.table k c hmem hc), ?_⟩ hnew
      rw [hone.others c hc]
      exact hexits.name c
  | comes u hexits _ hcomes =>
    by_cases hc : c = u.next
    · subst hc
      refine ⟨hcomes.remote, ?_⟩
      rcases hcomes.settled with hdead | hintro
      · rw [hdead] at hlive
        cases hlive
      · rw [Client.isServer, hintro.status]
        rfl
    · refine absurd ⟨hexits.table k (hcomes.one.table k c hmem hc), ?_⟩ hnew
      rw [hcomes.one.others c hc]
      exact hexits.name c

/-- A client that is fully introduced: a registered user under a valid nick, with the user
name, the host and the server that an introduction gave. -/
def FullyIntroduced (cf : ServerConfig) (P : Cid → Client → Prop) (w : World) (c : Cid) : Prop :=
  (w.clients c).isClient = true ∧ ValidNick cf (w.clients c).name ∧ P c (w.clients c)

/-- A malformed NICK line in one of the two forms changes nothing, but for a user that is
exited because it asks for an invalid nick. In every run whose NICK lines have one of the
two forms, the users of other servers are fully introduced, and whatever NICK or UID files
is one of them. -/
theorem malformed_nicks_settled (cf : ServerConfig) (key : Nat) (self : Identity) :
    (∀ (s : Registry) (client source : Cid) (parv : List CStr),
      (s.world.clients client).isServer = true → KnownForm parv → MalformedNick cf parv →
        (¬ ValidNick cf (param parv 1) → FromServer s.world client source parv) →
          s.msNick cf client source parv = s) ∧
    (∀ (s : Registry) (client source : Cid) (parv : List CStr),
      (s.world.clients client).isServer = true → (s.world.clients source).isServer = false →
        parv.length = 3 → param parv 1 ≠ [] → ¬ ValidNick cf (param parv 1) →
          s.msNick cf client source parv = s.after (s.world.killClient source)) ∧
    ∀ ops, Run.Guarded (World.step cf) CheckedForms (World.start key self) ops →
      let w := Run.exec (World.step cf) (World.start key self) ops
      (∀ c, (w.clients c).isDead = false → (w.clients c).myConnect = false →
        (w.clients c).isServer = false →
          FullyIntroduced cf (IntroducedIn cf (World.start key self) ops) w c) ∧
      ∀ client sender cmd params, cmd = .nick ∨ cmd = .uid →
        CheckedForms w (.message client sender cmd params) →
          let v := w.step cf (.message client sender cmd params)
          ∀ c, FiledBy w v c → (v.clients c).isDead = false →
            FullyIntroduced cf (fun c x => IntroducedIn cf (World.start key self) ops c x ∨
              IntroducedBy w (.message client sender cmd params) c x) v c := by
  refine ⟨?_, ?_, ?_⟩
  · intro s client source parv hclient hform hmal hnick
    unfold Registry.msNick
    rw [msNick_malformed hclient hform hmal hnick]
    exact s.after_self
  · intro s client source parv hclient hsource hthree hne hinvalid
    have hother : source ≠ client := by
      rintro rfl
      rw [hclient] at hsource
      cases hsource
    unfold Registry.msNick
    rw [msNick_badChange hthree hne hinvalid hsource hother]
  · intro ops hforms
    dsimp only
    have hrun := (accounted_start cf key self).run ops
      (fun _ _ _ _ _ _ hfalse => hfalse) hforms
    have hnow := hrun.mono (Q := IntroducedIn cf (World.start key self) ops)
      fun _ _ h => h.resolve_left id
    generalize Run.exec (World.step cf) (World.start key self) ops = w at hnow ⊢
    constructor
    · exact fun c hlive hconn hserver => hnow.user c hlive hconn hserver
    · intro client sender cmd params hcmd hform c hfiled hlive
      obtain ⟨hconn, hserver⟩ := hnow.filed hcmd hform hfiled hlive
      exact (hnow.step (ofIntroduction_introducedIn cf _ ops) hform).user c hlive hconn hserver

def nickConfig : ServerConfig where
  toConfig := { (default : Config) with nicklen := 10 }
  invisibleOnConnect := false
  operUmodes := ∅
  operOnlyUmodes := ∅
  hubItems := []
  leafItems := []
  nickResv _ := false

/-- A server whose link `leaf.net` introduces the user `alice`. -/
def hubIdentity : Identity where
  name := "hub.net".toList
  id := []
  named := by decide

/-- The link comes up and sends the introduction. -/
def introRun : List Op :=
  [.connect [], .link 1 "leaf.net".toList [],
    .message 1 [] .nick
      ["alice".toList, "1".toList, "5".toList, "+i".toList, "al".toList, "home".toList,
        "leaf.net".toList, "Alice".toList]]

theorem malformed_nicks_settled_alice :
    FullyIntroduced nickConfig (IntroducedIn nickConfig (World.start 7 hubIdentity) introRun)
      (Run.exec (World.step nickConfig) (World.start 7 hubIdentity) introRun) 2 :=
  ((malformed_nicks_settled nickConfig 7 hubIdentity).2.2 introRun
    ⟨trivial, trivial, .inr (.inl rfl), trivial⟩).1 2 (by decide +kernel) (by decide +kernel)
      (by decide +kernel)

/-- A link to the server `leaf.net`, with the user `alice` behind it. -/
def linkedWorld : World where
  ircdRandomKey := 0
  currentTime := 1
  clients c :=
    if c = 1 then
      { (default : Client) with
        status := .server, name := "leaf.net".toList, «from» := 1, localClient := some ⟨0, 0⟩ }
    else if c = 2 then
      { (default : Client) with status := .client, name := "alice".toList, «from» := 1, servptr := 1 }
    else default
  serv _ := { users := [], servers := [], depServers := 1, depUsers := 0 }
  next := 3
  clientTable _ := []
  idTable _ := []
  globalServList := [me, 1]
  servList := [1]
  unknownList := []
  localClientList := []
  operList := []
  deadList := []
  count := { total := 1, invisi := 0, oper := 0, «local» := 0 }
  assertsHold := true

def linkedRegistry : Registry where
  world := linkedWorld
  channels := { MemberState.start default 0 with clients := linkedWorld.clients }
  agree := rfl

/-- A change to an invalid nick exits the user that asks for it; and a line that is neither
a change nor an introduction files a client that is not introduced. -/
theorem malformed_nick_acts :
    (MalformedNick nickConfig ["alice".toList, "a.b".toList, "5".toList] ∧
      linkedRegistry.msNick nickConfig 1 2 ["alice".toList, "a.b".toList, "5".toList] ≠
        linkedRegistry) ∧
    (MalformedNick nickConfig ["leaf.net".toList, "bob".toList] ∧
      linkedRegistry.msNick nickConfig 1 1 ["leaf.net".toList, "bob".toList] ≠ linkedRegistry ∧
      ((linkedRegistry.msNick nickConfig 1 1
        ["leaf.net".toList, "bob".toList]).world.clients 3).name = "bob".toList ∧
      ((linkedRegistry.msNick nickConfig 1 1
        ["leaf.net".toList, "bob".toList]).world.clients 3).isUnknown = true) := by
  have hbad : ¬ ValidNick nickConfig (param ["alice".toList, "a.b".toList, "5".toList] 1) := by
    decide
  have hbob : (linkedRegistry.msNick nickConfig 1 1
      ["leaf.net".toList, "bob".toList]).world.clients 3 =
      { (default : Client) with
        username := "unknown".toList, «from» := 1, tsinfo := 1, name := "bob".toList } := by
    decide +kernel
  refine ⟨⟨.inr (.inl hbad), fun heq => ?_⟩, .inl (by decide), fun heq => ?_, ?_, ?_⟩
  · have hkill : linkedWorld.msNick nickConfig 1 2 ["alice".toList, "a.b".toList, "5".toList] =
        linkedWorld.killClient 2 := msNick_badChange rfl (by decide) hbad (by decide) (by decide)
    have hdead := isDead_killClient (w := linkedWorld) (c := 2) (by decide) (by decide)
    have hworld : linkedWorld.msNick nickConfig 1 2
        ["alice".toList, "a.b".toList, "5".toList] = linkedWorld := congrArg Registry.world heq
    rw [← hkill, hworld] at hdead
    exact absurd hdead (by decide)
  · rw [heq] at hbob
    exact absurd hbob (by decide)
  · rw [hbob]
  · rw [hbob]
    rfl

end Ircd
