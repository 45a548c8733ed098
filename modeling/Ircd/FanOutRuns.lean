import Ircd.FanOut
import Ircd.MembershipRuns

/-!
Runs in which clients come, join and go and lines are sent to many.

No command puts a client on a channel that has not been introduced (`MemberState.Moves`),
and no serial number is above the last (`Settled`), so that the lines of every call go
to everybody to whom they are due: `fan_out_once`.
-/

namespace Ircd

open Function

namespace MemberState

/-! ### Who is put on channels -/

/-- From one state to the other, clients for which `P` holds were put on channels and
others taken off; the clients themselves have not changed. -/
structure Moves (P : Cid → Prop) (s t : MemberState) : Prop where
  clients : t.clients = s.clients
  alive : t.alive = s.alive
  nextClient : t.nextClient = s.nextClient
  people : ∀ m x, t.member m = some x → P x.client ∨ ∃ y, s.member m = some y ∧ y.client = x.client

variable {P : Cid → Prop} {s t u : MemberState} {env : MemberEnv} {source client : Cid}

theorem Moves.refl (P : Cid → Prop) (s : MemberState) : Moves P s s :=
  ⟨rfl, rfl, rfl, fun _ x hx => Or.inr ⟨x, hx, rfl⟩⟩

theorem Moves.trans (h : Moves P s t) (h' : Moves P t u) : Moves P s u where
  clients := h'.clients.trans h.clients
  alive := h'.alive.trans h.alive
  nextClient := h'.nextClient.trans h.nextClient
  people m x hx := by
    rcases h'.people m x hx with hP | ⟨y, hy, heq⟩
    · exact Or.inl hP
    · rw [← heq]
      exact h.people m y hy

theorem Moves.of_member (hclients : t.clients = s.clients) (halive : t.alive = s.alive)
    (hnext : t.nextClient = s.nextClient) (hmember : t.member = s.member) : Moves P s t :=
  ⟨hclients, halive, hnext, fun _ x hx => Or.inr ⟨x, hmember ▸ hx, rfl⟩⟩

theorem Moves.foldl {ι : Type} {f : MemberState → ι → MemberState}
    (hf : ∀ u, Moves P s u → ∀ i, Moves P u (f u i)) (l : List ι) :
    ∀ u, Moves P s u → Moves P s (l.foldl f u) := by
  induction l with
  | nil => exact fun u hu => hu
  | cons i l ih => exact fun u hu => ih _ (hu.trans (hf u hu i))

theorem moves_addUserToChannel {who : Cid} (hP : P who) (s : MemberState) (ch : Nat)
    (flags : Finset ChFlag) : Moves P s (s.addUserToChannel ch who flags) := by
  refine ⟨rfl, rfl, rfl, fun m x hx => ?_⟩
  by_cases hm : m = s.nextMember
  · subst hm
    simp only [addUserToChannel, update_self, Option.some.injEq] at hx
    exact Or.inl (hx ▸ hP)
  · simp only [addUserToChannel, update_of_ne hm] at hx
    exact Or.inr ⟨x, hx, rfl⟩

theorem moves_destroyChannel (s : MemberState) (ch : Nat) : Moves P s (s.destroyChannel ch) := by
  unfold destroyChannel
  split
  · exact Moves.refl P s
  · exact Moves.of_member rfl rfl rfl rfl

theorem moves_removeUserFromChannel (s : MemberState) (m : Nat) :
    Moves P s (s.removeUserFromChannel m) := by
  unfold removeUserFromChannel
  split
  · exact Moves.refl P s
  · rename_i ms _
    have hunlink : Moves P s (s.unlinkMember m ms) := by
      refine ⟨rfl, rfl, rfl, fun n x hx => ?_⟩
      by_cases hn : n = m
      · subst hn
        simp [unlinkMember] at hx
      · simp only [unlinkMember, update_of_ne hn] at hx
        exact Or.inr ⟨x, hx, rfl⟩
    dsimp only
    split
    · exact hunlink.trans (moves_destroyChannel _ _)
    · exact hunlink

theorem moves_removeOurModes (s : MemberState) (ch : Nat) : Moves P s (s.removeOurModes ch) := by
  refine ⟨rfl, rfl, rfl, fun m x hx => ?_⟩
  simp only [removeOurModes] at hx
  obtain ⟨y, hy, rfl⟩ := Option.map_eq_some_iff.mp hx
  refine Or.inr ⟨y, hy, ?_⟩
  split <;> rfl

theorem moves_doJoin0 (s : MemberState) (source : Cid) : Moves P s (s.doJoin0 source) := by
  unfold doJoin0
  refine Moves.foldl (fun u _ m => ?_) _ s (Moves.refl P s)
  unfold leaveIfBefore0
  split
  · exact Moves.refl P u
  · split
    · exact moves_removeUserFromChannel u m
    · exact Moves.refl P u

/-! ### The commands -/

theorem moves_getOrCreateChannel {now : Int} {name : CStr} {ch : Nat} {isnew : Bool}
    (h : s.getOrCreateChannel now name = some (t, ch, isnew)) : Moves P s t := by
  unfold getOrCreateChannel at h
  split at h
  · cases h
  · split at h
    · obtain ⟨rfl, -⟩ := Prod.mk.inj (Option.some.inj h)
      exact Moves.refl P s
    · obtain ⟨rfl, -⟩ := Prod.mk.inj (Option.some.inj h)
      exact Moves.of_member rfl rfl rfl rfl

theorem moves_addTarget (env : MemberEnv) (source : Cid) (key : Option CStr) (e : JoinEntry)
    (s : MemberState) : Moves P s (s.addTarget env source key e) := by
  cases e with
  | zero => exact Moves.of_member rfl rfl rfl rfl
  | chan name =>
    obtain ⟨s', targets, heq, rfl | ⟨-, rfl⟩, -⟩ := s.addTarget_chan env source key name
    · rw [heq]
      exact Moves.of_member rfl rfl rfl rfl
    · rw [heq]
      exact Moves.of_member rfl rfl rfl rfl

theorem moves_joinTarget (hP : P source) (env : MemberEnv) (s : MemberState) (t : Target) :
    Moves P s (s.joinTarget env source t) := by
  unfold joinTarget
  split
  · exact Moves.refl P s
  · split
    · exact Moves.refl P s
    · split
      · exact Moves.refl P s
      · dsimp only
        split
        · exact (moves_addUserToChannel hP s _ _).trans (Moves.of_member rfl rfl rfl rfl)
        · exact moves_addUserToChannel hP s _ _

theorem moves_mJoin (hP : P source) (env : MemberEnv) (s : MemberState) (parv : List CStr) :
    Moves P s (s.mJoin env source parv) := by
  unfold mJoin
  split
  · exact Moves.refl P s
  · split
    · exact Moves.refl P s
    · dsimp only
      have hbuild : ∀ channels keys, Moves P s (s.buildTargetList env source channels keys) := by
        intro channels keys
        unfold buildTargetList
        exact Moves.foldl (fun u _ e => moves_addTarget env source e.2 e.1 u) _ _
          (Moves.of_member rfl rfl rfl rfl)
      refine Moves.foldl (fun u _ target => moves_joinTarget hP env u target) _ _ ?_
      split
      · exact (hbuild _ _).trans (moves_doJoin0 _ _)
      · exact hbuild _ _

theorem moves_applyStamps (s : MemberState) (ch : Nat) (c : ChannelData) (rule : TsRule)
    (mode : Mode) : Moves P s (s.applyStamps ch c rule mode) := by
  unfold applyStamps
  dsimp only
  split
  · exact Moves.of_member rfl rfl rfl rfl
  · refine Moves.trans ?_ (moves_removeOurModes _ ch)
    exact Moves.of_member rfl rfl rfl rfl

theorem moves_msJoin (hP : P source) (env : MemberEnv) (s : MemberState) (parv : List CStr) :
    Moves P s (s.msJoin env source parv) := by
  unfold msJoin
  split
  · exact moves_doJoin0 s source
  · split
    · exact Moves.refl P s
    · split
      · exact Moves.refl P s
      · split
        · exact Moves.refl P s
        · rename_i hcreate
          have hmoves := moves_getOrCreateChannel (P := P) hcreate
          split
          · exact hmoves
          · dsimp only
            split
            · exact hmoves.trans (moves_applyStamps _ _ _ _ _)
            · exact (hmoves.trans (moves_applyStamps _ _ _ _ _)).trans
                (moves_addUserToChannel hP _ _ _)
  · exact Moves.refl P s

theorem moves_msSjoin (hP : ∀ c, s.alive c = true → P c) (env : MemberEnv) (client source : Cid)
    (parv : List CStr) : Moves P s (s.msSjoin env client source parv) := by
  unfold msSjoin
  split
  · exact Moves.refl P s
  · split
    · exact Moves.refl P s
    · rename_i hcreate
      have hmoves := moves_getOrCreateChannel (P := P) hcreate
      split
      · exact hmoves
      · dsimp only
        have hwords : ∀ (words : List CStr) (keepNewModes : Bool) (ch : Nat) (u : MemberState),
            Moves P s u → Moves P s (words.foldl (fun s word =>
              s.sjoinNick env client ch keepNewModes word) u) := by
          intro words keepNewModes ch
          refine Moves.foldl (fun u hu word => ?_) _
          unfold sjoinNick
          split
          · exact Moves.refl P u
          · rename_i target hword
            split
            · exact Moves.refl P u
            · apply moves_addUserToChannel
              apply hP
              rw [← hu.alive]
              exact (wordTarget_alive hword).1
        have hclear : ∀ u ch, Moves P u (clearBanLists u ch) := by
          intro u ch
          unfold clearBanLists
          split
          · exact Moves.refl P u
          · exact Moves.of_member rfl rfl rfl rfl
        split
        · refine Moves.trans ?_ (moves_destroyChannel _ _)
          exact hwords _ _ _ _ (hmoves.trans (moves_applyStamps _ _ _ _ _))
        · split
          · refine Moves.trans ?_ (hclear _ _)
            exact hwords _ _ _ _ (hmoves.trans (moves_applyStamps _ _ _ _ _))
          · exact hwords _ _ _ _ (hmoves.trans (moves_applyStamps _ _ _ _ _))

theorem moves_mPart (s : MemberState) (source : Cid) (parv : List CStr) :
    Moves P s (s.mPart source parv) := by
  unfold mPart
  split
  · exact Moves.refl P s
  · split
    · exact Moves.refl P s
    · refine Moves.foldl (fun u _ name => ?_) _ s (Moves.refl P s)
      unfold partOneClient
      split
      · exact Moves.refl P u
      · split
        · exact Moves.refl P u
        · exact moves_removeUserFromChannel u _

theorem moves_mKick (env : MemberEnv) (s : MemberState) (client source : Cid) (parv : List CStr) :
    Moves P s (s.mKick env client source parv) := by
  unfold mKick
  repeat' split
  all_goals first
    | exact Moves.refl P s
    | exact moves_removeUserFromChannel s _

theorem moves_step (op : MemberOp) (hintroduce : ∀ record, op ≠ .introduce record)
    (hchange : ∀ who record, op ≠ .change who record) (hexit : ∀ who, op ≠ .exit who)
    (s : MemberState) : Moves (fun c => s.alive c = true) s (s.step op) := by
  cases op with
  | introduce record => exact absurd rfl (hintroduce record)
  | change who record => exact absurd rfl (hchange who record)
  | exit who => exact absurd rfl (hexit who)
  | data ch c =>
    simp only [MemberState.step]
    split
    · exact Moves.refl _ s
    · exact Moves.of_member rfl rfl rfl rfl
  | flags m fl =>
    simp only [MemberState.step]
    split
    · exact Moves.refl _ s
    · rename_i ms hms
      refine ⟨rfl, rfl, rfl, fun n x hx => ?_⟩
      by_cases hn : n = m
      · subst hn
        simp only [update_self, Option.some.injEq] at hx
        exact Or.inr ⟨ms, hms, by rw [← hx]⟩
      · simp only [update_of_ne hn] at hx
        exact Or.inr ⟨x, hx, rfl⟩
  | join env source parv =>
    simp only [MemberState.step]
    split
    · rename_i hok
      exact moves_mJoin hok.1 env s parv
    · exact Moves.refl _ s
  | remoteJoin env source parv =>
    simp only [MemberState.step]
    split
    · rename_i hok
      exact moves_msJoin hok.1 env s parv
    · exact Moves.refl _ s
  | sjoin env client source parv =>
    simp only [MemberState.step]
    split
    · exact moves_msSjoin (fun _ halive => halive) env client source parv
    · exact Moves.refl _ s
  | part source parv =>
    simp only [MemberState.step]
    split
    · exact moves_mPart s source parv
    · exact Moves.refl _ s
  | kick env client source parv =>
    simp only [MemberState.step]
    split
    · exact moves_mKick env s client source parv
    · exact Moves.refl _ s

theorem moves_exitOneClient (s : MemberState) (who : Cid) :
    ∃ t, Moves (fun _ => False) s t ∧ s.exitOneClient who =
      { t with alive := update t.alive who false } := by
  refine ⟨_, ?_, rfl⟩
  split
  · exact Moves.foldl (fun u _ m => moves_removeUserFromChannel u m) _ s (Moves.refl _ s)
  · exact Moves.refl _ s

/-! ### Who stays -/

/-- Clients that are alive stay so, and users stay users; new clients have come in order. -/
structure Carries (s t : MemberState) : Prop where
  alive : ∀ c, s.alive c = true → t.alive c = true
  users : ∀ c, s.alive c = true → (s.clients c).isClient = true → (t.clients c).isClient = true
  introduced : (∀ c, s.alive c = true → c < s.nextClient) →
    ∀ c, t.alive c = true → c < t.nextClient

theorem Moves.carries (h : Moves P s t) : Carries s t where
  alive c hc := by rwa [h.alive]
  users c _ huser := by rwa [h.clients]
  introduced hold c hc := by
    rw [h.alive] at hc
    rw [h.nextClient]
    exact hold c hc

theorem carries_introduce (hold : ∀ c, s.alive c = true → c < s.nextClient) (record : Client) :
    Carries s (s.step (.introduce record)) := by
  have hne : ∀ c, s.alive c = true → c ≠ s.nextClient := fun c hc => Nat.ne_of_lt (hold c hc)
  constructor
  · intro c hc
    change update s.alive s.nextClient true c = true
    rwa [update_of_ne (hne c hc)]
  · intro c hc huser
    change (update s.clients s.nextClient record c).isClient = true
    rwa [update_of_ne (hne c hc)]
  · intro _ c hc
    change c < s.nextClient + 1
    have hc : update s.alive s.nextClient true c = true := hc
    by_cases hnew : c = s.nextClient
    · exact hnew ▸ Nat.lt_succ_self _
    · rw [update_of_ne hnew] at hc
      exact Nat.lt_succ_of_lt (hold c hc)

theorem carries_change (s : MemberState) (who : Cid) (record : Client) :
    Carries s (s.step (.change who record)) := by
  rw [MemberState.step]
  split
  · next hfollows =>
      refine ⟨fun _ hc => hc, fun c _ huser => ?_, fun hold => hold⟩
      change (update s.clients who record c).isClient = true
      by_cases hc : c = who
      · subst hc
        rw [update_self]
        exact hfollows.2.2.1 huser
      · rwa [update_of_ne hc]
  · exact ⟨fun _ hc => hc, fun _ _ huser => huser, fun hold => hold⟩

end MemberState

/-! ### Runs -/

/-- What happens. `connections` stands for all that is sent and written otherwise, and for
the capabilities of links. -/
inductive FanOp where
  | member (op : MemberOp)
  | opers (operList : List Cid)
  | connections (sendq : Cid → SendQueue) (caps : Cid → Nat) (hub : Bool)
      (lazyLinkClientExists : Cid → Cid → Bool)
  | butone (env : SendEnv) (one : Option Cid) (source : Cid) (ch : Nat) (command text : CStr)
  | common (env : SendEnv) (user : Cid) (touser : Bool) (text : CStr)
  | matchServs (env : SendEnv) (globalServList : List Cid) (source : Cid) (hit : CStr → Bool)
      (cap : Nat) (buf : Cid → CStr)

namespace FanOut

/-- `make_client`: a local client is its own `from`, and the others have come over a server
that is connected here. It stays so. -/
def madeRight (s : FanOut) : MemberOp → Bool
  | .introduce record =>
    if record.myConnect then record.from == s.base.nextClient
    else decide (record.from < s.base.nextClient) && (s.client record.from).myConnect &&
      (s.client record.from).isServer
  | .change who record => record.from == (s.client who).from
  | _ => true

/-- The serial numbers after an operation: a new client comes with 0. -/
def serialAfter (s : FanOut) : MemberOp → Cid → Nat
  | .introduce _ => update s.serial s.base.nextClient 0
  | _ => s.serial

/-- One step. The lists of operators and of servers hold such clients only. -/
def step (s : FanOut) : FanOp → Option FanOut
  | .member op =>
    some (if s.madeRight op then { s with base := s.base.step op, serial := s.serialAfter op }
      else s)
  | .opers operList =>
    some (if operList.all fun c =>
        decide (c < s.base.nextClient) && (s.client c).myConnect && (s.client c).from == c then
      { s with operList } else s)
  | .connections sendq caps hub lazyLinkClientExists =>
    some { s with sendq, caps, hub, lazyLinkClientExists }
  | .butone env one source ch command text => s.sendtoChannelButone env one source ch command text
  | .common env user touser text => some (s.sendtoCommonChannelsLocal env user touser text)
  | .matchServs env globalServList source hit cap buf =>
    if globalServList.all fun c =>
        decide (c < s.base.nextClient) && ((s.client c).isServer || (s.client c).isMe) then
      s.sendtoMatchServs env globalServList source hit cap buf
    else some s

def run (s : FanOut) (ops : List FanOp) : Option FanOut := ops.foldlM step s

def start (cf : Config) (ircdRandomKey : Nat) : FanOut where
  base := MemberState.start cf ircdRandomKey

/-- No serial number is above the last, and clients are reached where they are. -/
structure Settled (s : FanOut) : Prop where
  bounded : ∀ c, s.serial c ≤ s.currentSerial
  people : ∀ m x, s.base.member m = some x → x.client < s.base.nextClient
  alive : ∀ c, s.base.alive c = true → c < s.base.nextClient
  routed : ∀ c, c < s.base.nextClient → Routed s c ∧ (s.client c).from < s.base.nextClient
  opers : ∀ oper ∈ s.operList, oper < s.base.nextClient ∧ (s.client oper).myConnect = true ∧
    (s.client oper).from = oper

variable {P : Cid → Prop} {s t : FanOut}

theorem Routed.congr {c : Cid} (h : Routed s c)
    (hconnect : ∀ d, (t.client d).myConnect = (s.client d).myConnect)
    (hfrom : ∀ d, (t.client d).from = (s.client d).from)
    (hserver : ∀ d, (s.client d).isServer = true → (t.client d).isServer = true) : Routed t c := by
  unfold Routed at h ⊢
  rw [hconnect, hfrom, hconnect]
  split
  · rename_i hlocal
    rwa [if_pos hlocal] at h
  · rename_i hlocal
    rw [if_neg hlocal] at h
    exact ⟨h.1, hserver _ h.2⟩

theorem Settled.frame (h : s.Settled) (hframe : Frame P s.nextSerial t)
    (hbounded : ∀ c, t.serial c ≤ t.currentSerial) : t.Settled := by
  have hmember : t.base.member = s.base.member := by rw [hframe.base]; rfl
  have halive : t.base.alive = s.base.alive := by rw [hframe.base]; rfl
  have hnext : t.base.nextClient = s.base.nextClient := by rw [hframe.base]; rfl
  have hconnect : ∀ d, (t.client d).myConnect = (s.client d).myConnect := hframe.myConnect
  have hfrom : ∀ d, (t.client d).from = (s.client d).from := hframe.from
  refine ⟨hbounded, ?_, ?_, ?_, ?_⟩
  · rw [hmember, hnext]
    exact h.people
  · rw [halive, hnext]
    exact h.alive
  · intro c hc
    rw [hnext] at hc ⊢
    rw [hfrom]
    obtain ⟨hrouted, hlink⟩ := h.routed c hc
    refine ⟨hrouted.congr hconnect hfrom fun d hd => ?_, hlink⟩
    rw [Client.isServer, hframe.status]
    exact hd
  · intro oper hoper
    rw [hframe.operList] at hoper
    rw [hconnect, hfrom, hnext]
    exact h.opers oper hoper

theorem Settled.moves (h : s.Settled) {base : MemberState}
    (hmoves : MemberState.Moves (fun c => c < s.base.nextClient) s.base base) :
    ({ s with base } : FanOut).Settled := by
  have hclient : ∀ d, ({ s with base } : FanOut).client d = s.client d := by
    intro d
    rw [client, client, hmoves.clients]
  refine ⟨h.bounded, fun m x hx => ?_, fun c hc => ?_, fun c hc => ?_, fun oper hoper => ?_⟩
  · change x.client < base.nextClient
    rw [hmoves.nextClient]
    rcases hmoves.people m x hx with hP | ⟨y, hy, heq⟩
    · exact hP
    · rw [← heq]
      exact h.people m y hy
  · change c < base.nextClient
    have hc : base.alive c = true := hc
    rw [hmoves.alive] at hc
    rw [hmoves.nextClient]
    exact h.alive c hc
  · change c < base.nextClient at hc
    change _ ∧ _ < base.nextClient
    rw [hmoves.nextClient] at hc ⊢
    rw [hclient]
    obtain ⟨hrouted, hlink⟩ := h.routed c hc
    refine ⟨hrouted.congr (fun d => ?_) (fun d => ?_) fun d hd => ?_, hlink⟩
    · rw [hclient]
    · rw [hclient]
    · rwa [hclient]
  · change oper < base.nextClient ∧ _
    rw [hclient, hmoves.nextClient]
    exact h.opers oper hoper

theorem Settled.introduce (h : s.Settled) {record : Client}
    (hmade : s.madeRight (.introduce record) = true) :
    ({ s with
      base := s.base.step (.introduce record)
      serial := s.serialAfter (.introduce record) } : FanOut).Settled := by
  set t : FanOut := { s with
    base := s.base.step (.introduce record)
    serial := s.serialAfter (.introduce record) } with ht
  have hnext : t.base.nextClient = s.base.nextClient + 1 := rfl
  have hself : t.client s.base.nextClient = record := by
    rw [ht]
    simp [client, MemberState.step]
  have hothers : ∀ c, c ≠ s.base.nextClient → t.client c = s.client c := by
    intro c hc
    rw [ht]
    simp [client, MemberState.step, hc]
  have hold : ∀ c, c < s.base.nextClient → t.client c = s.client c :=
    fun c hc => hothers c (Nat.ne_of_lt hc)
  refine ⟨fun c => ?_, fun m x hx => ?_, fun c hc => ?_, fun c hc => ?_, fun oper hoper => ?_⟩
  · change update s.serial s.base.nextClient 0 c ≤ s.currentSerial
    by_cases heq : c = s.base.nextClient
    · rw [heq, update_self]
      exact Nat.zero_le _
    · rw [update_of_ne heq]
      exact h.bounded c
  · exact (h.people m x hx).trans (Nat.lt_succ_self _)
  · have hc : update s.base.alive s.base.nextClient true c = true := hc
    rw [hnext]
    by_cases heq : c = s.base.nextClient
    · rw [heq]
      exact Nat.lt_succ_self _
    · rw [update_of_ne heq] at hc
      exact (h.alive c hc).trans (Nat.lt_succ_self _)
  · rw [hnext] at hc ⊢
    by_cases heq : c = s.base.nextClient
    · subst heq
      unfold Routed
      rw [hself]
      by_cases hlocal : record.myConnect = true
      · have hfrom : record.from = s.base.nextClient := by
          simpa [madeRight, hlocal] using hmade
        rw [if_pos hlocal, hfrom]
        exact ⟨rfl, Nat.lt_succ_self _⟩
      · obtain ⟨⟨hlt, hlink⟩, hserver⟩ : (record.from < s.base.nextClient ∧
            (s.client record.from).myConnect = true) ∧ (s.client record.from).isServer = true := by
          simpa [madeRight, hlocal] using hmade
        rw [if_neg hlocal, hold _ hlt]
        exact ⟨⟨hlink, hserver⟩, hlt.trans (Nat.lt_succ_self _)⟩
    · have hlt : c < s.base.nextClient := Nat.lt_of_le_of_ne (Nat.le_of_lt_succ hc) heq
      obtain ⟨hrouted, hlink⟩ := h.routed c hlt
      rw [hold c hlt]
      refine ⟨?_, hlink.trans (Nat.lt_succ_self _)⟩
      unfold Routed at hrouted ⊢
      rw [hold c hlt, hold _ hlink]
      exact hrouted
  · obtain ⟨hlt, hoper⟩ := h.opers oper hoper
    rw [hold oper hlt]
    exact ⟨hlt.trans (Nat.lt_succ_self _), hoper⟩

theorem Settled.change (h : s.Settled) {who : Cid} {record : Client}
    (hmade : s.madeRight (.change who record) = true) :
    ({ s with base := s.base.step (.change who record) } : FanOut).Settled := by
  simp only [MemberState.step]
  split
  · rename_i hok
    obtain ⟨hconnect, -, hserver⟩ := hok.2
    have hfrom : record.from = (s.client who).from := by simpa [madeRight] using hmade
    set t : FanOut := { s with
      base := { s.base with clients := update s.base.clients who record } } with ht
    have hclient : ∀ c, t.client c = if c = who then record else s.client c := by
      intro c
      rw [ht, client]
      by_cases hc : c = who
      · simp [hc]
      · simp [hc, client]
    have hconnect' : ∀ c, (t.client c).myConnect = (s.client c).myConnect := by
      intro c
      rw [hclient]
      split
      · rename_i hc
        rw [hc]
        exact hconnect
      · rfl
    have hfrom' : ∀ c, (t.client c).from = (s.client c).from := by
      intro c
      rw [hclient]
      split
      · rename_i hc
        rw [hc]
        exact hfrom
      · rfl
    have hserver' : ∀ c, (s.client c).isServer = true → (t.client c).isServer = true := by
      intro c hc
      rw [hclient]
      split
      · rename_i heq
        rw [heq] at hc
        exact hserver hc
      · exact hc
    refine ⟨h.bounded, h.people, h.alive, fun c hc => ?_, fun oper hoper => ?_⟩
    · rw [hfrom']
      obtain ⟨hrouted, hlink⟩ := h.routed c hc
      exact ⟨hrouted.congr hconnect' hfrom' hserver', hlink⟩
    · rw [hconnect', hfrom']
      exact h.opers oper hoper
  · exact h

theorem Settled.exit (h : s.Settled) (who : Cid) :
    ({ s with base := s.base.step (.exit who) } : FanOut).Settled := by
  simp only [MemberState.step]
  split
  · obtain ⟨t, hmoves, heq⟩ := MemberState.moves_exitOneClient s.base who
    rw [heq]
    have ht : ({ s with base := t } : FanOut).Settled := h.moves
      ⟨hmoves.clients, hmoves.alive, hmoves.nextClient, fun m x hx =>
        Or.inr ((hmoves.people m x hx).resolve_left id)⟩
    refine ⟨ht.bounded, ht.people, fun c hc => ?_, ht.routed, ht.opers⟩
    by_cases hc' : c = who
    · subst hc'
      simp at hc
    · simp only [update_of_ne hc'] at hc
      exact ht.alive c hc
  · exact h

theorem Settled.moved (h : s.Settled) (op : MemberOp)
    (hintroduce : ∀ record, op ≠ .introduce record)
    (hchange : ∀ who record, op ≠ .change who record) (hexit : ∀ who, op ≠ .exit who) :
    ({ s with base := s.base.step op } : FanOut).Settled := by
  have hmoves := MemberState.moves_step op hintroduce hchange hexit s.base
  exact h.moves ⟨hmoves.clients, hmoves.alive, hmoves.nextClient,
    fun m x hx => (hmoves.people m x hx).imp_left fun halive => h.alive _ halive⟩

theorem Settled.member (h : s.Settled) (op : MemberOp) (hmade : s.madeRight op = true) :
    ({ s with base := s.base.step op, serial := s.serialAfter op } : FanOut).Settled := by
  cases op with
  | introduce record => exact h.introduce hmade
  | change who record => exact h.change hmade
  | exit who => exact h.exit who
  | data ch c => exact h.moved (.data ch c) (by simp) (by simp) (by simp)
  | flags m fl => exact h.moved (.flags m fl) (by simp) (by simp) (by simp)
  | join env source parv => exact h.moved (.join env source parv) (by simp) (by simp) (by simp)
  | remoteJoin env source parv =>
    exact h.moved (.remoteJoin env source parv) (by simp) (by simp) (by simp)
  | sjoin env client source parv =>
    exact h.moved (.sjoin env client source parv) (by simp) (by simp) (by simp)
  | part source parv => exact h.moved (.part source parv) (by simp) (by simp) (by simp)
  | kick env client source parv =>
    exact h.moved (.kick env client source parv) (by simp) (by simp) (by simp)

theorem Settled.routedMember (h : s.Settled) (m : Nat) (x : Member)
    (hx : s.base.member m = some x) : Routed s x.client :=
  (h.routed _ (h.people m x hx)).1

theorem Settled.operLocal (h : s.Settled) (oper : Cid) (hoper : oper ∈ s.operList) :
    (s.client (s.client oper).from).myConnect = true := by
  obtain ⟨-, hlocal, hself⟩ := h.opers oper hoper
  rw [hself]
  exact hlocal

theorem Settled.matchServs (h : s.Settled) {globalServList : List Cid}
    (hservers : ∀ c ∈ globalServList, c < s.base.nextClient ∧
      ((s.client c).isServer = true ∨ (s.client c).isMe = true))
    (env : SendEnv) (source : Cid) (hit : CStr → Bool) (cap : Nat) (buf : Cid → CStr) :
    ∃ t, s.sendtoMatchServs env globalServList source hit cap buf = some t ∧ t.Settled := by
  have hstep : ∀ target ∈ globalServList, ∀ u,
      (Frame (fun c => (s.client c).myConnect = true) s.nextSerial u ∧
        ∀ c, u.serial c ≤ u.currentSerial) →
      ∃ v, matchServ env source hit cap buf u target = some v ∧
        (Frame (fun c => (s.client c).myConnect = true) s.nextSerial v ∧
          ∀ c, v.serial c ≤ v.currentSerial) ∧ True ∧ True := by
    rintro target htarget u ⟨hframe, hbounded⟩
    obtain ⟨hlt, hkind⟩ := hservers target htarget
    have hfrom : ∀ d, (u.client d).from = (s.client d).from := hframe.from
    have hstatus : ∀ d, (u.client d).status = (s.client d).status := hframe.status
    have hconnect : ∀ d, (u.client d).myConnect = (s.client d).myConnect := hframe.myConnect
    unfold matchServ
    dsimp only
    rw [hfrom]
    split
    · exact ⟨u, rfl, ⟨hframe, hbounded⟩, trivial, trivial⟩
    · rename_i hskip
      rw [not_or, Client.isMe, hstatus] at hskip
      have hmark : Frame (fun c => (s.client c).myConnect = true) s.nextSerial
          (u.mark (s.client target).from) :=
        ⟨hframe.base, hframe.client, hframe.currentSerial, hframe.caps, hframe.operList⟩
      have hmarked : ∀ c, (u.mark (s.client target).from).serial c ≤
          (u.mark (s.client target).from).currentSerial := by
        intro c
        unfold mark
        by_cases hc : c = (s.client target).from
        · simp [hc]
        · simpa [hc] using hbounded c
      split
      · exact ⟨_, rfl, ⟨hmark, hmarked⟩, trivial, trivial⟩
      · have hserver : (s.client target).isServer = true :=
          hkind.resolve_right hskip.1
        have hlink : (s.client (s.client target).from).myConnect = true ∧
            (s.client (s.client target).from).isServer = true := by
          have hrouted := (h.routed target hlt).1
          unfold Routed at hrouted
          split at hrouted
          · rename_i hlocal
            rw [hrouted]
            exact ⟨hlocal, hserver⟩
          · exact hrouted
        have hnoclient : ((u.mark (s.client target).from).client
            (s.client target).from).isClient = false := by
          have hkind := hlink.2
          rw [Client.isServer, beq_iff_eq] at hkind
          have hsame : ((u.mark (s.client target).from).client
              (s.client target).from).status = .server := (hstatus _).trans hkind
          rw [Client.isClient, hsame]
          rfl
        have hopers : ∀ oper ∈ u.operList, (s.client (u.client oper).from).myConnect = true := by
          intro oper hoper
          rw [hframe.operList] at hoper
          rw [hfrom]
          exact h.operLocal oper hoper
        obtain ⟨v, hsend, hputs⟩ := sendMessageRemote_puts env (.other (buf target))
          (s := u.mark (s.client target).from)
          (P := fun c => (s.client c).myConnect = true) hlink.1 hopers
          ((hconnect _).trans hlink.1) hnoclient source
        refine ⟨v, hsend, ⟨hmark.trans hputs.toFrame, fun c => ?_⟩, trivial, trivial⟩
        rw [hputs.serial, hputs.currentSerial]
        exact hmarked c
  obtain ⟨t, hloop, ⟨hframe, hbounded⟩, -, -⟩ := Loops.foldlM_reaches (s := s.nextSerial)
    (fun _ => trivial) (fun _ _ _ _ _ => trivial) (fun _ _ _ _ _ => trivial) hstep
    ⟨Frame.refl _ _, fun c => (h.bounded c).trans (Nat.le_succ _)⟩
  exact ⟨t, hloop, h.frame hframe hbounded⟩

theorem Settled.step (h : s.Settled) (op : FanOp) : ∃ t, s.step op = some t ∧ t.Settled := by
  cases op with
  | member op =>
    by_cases hmade : s.madeRight op = true
    · exact ⟨_, by rw [FanOut.step, if_pos hmade], h.member op hmade⟩
    · exact ⟨s, by rw [FanOut.step, if_neg hmade], h⟩
  | opers operList =>
    rw [FanOut.step]
    split
    · rename_i hall
      refine ⟨_, rfl, h.bounded, h.people, h.alive, h.routed, fun oper hoper => ?_⟩
      have hoper := List.all_eq_true.mp hall oper hoper
      simp only [Bool.and_eq_true, decide_eq_true_eq, beq_iff_eq] at hoper
      exact ⟨hoper.1.1, hoper.1.2, hoper.2⟩
    · exact ⟨s, rfl, h⟩
  | connections sendq caps hub lazyLinkClientExists =>
    exact ⟨_, rfl, h.bounded, h.people, h.alive, h.routed, h.opers⟩
  | butone env one source ch command text =>
    obtain ⟨t, hcall, hframe, hbounded, -⟩ := sendtoChannelButone_served env h.bounded
      h.routedMember h.operLocal one source ch command text
    exact ⟨t, hcall, h.frame hframe hbounded⟩
  | common env user touser text =>
    obtain ⟨hframe, hbounded, -⟩ :=
      sendtoCommonChannelsLocal_served env h.bounded user touser text
    exact ⟨_, rfl, h.frame hframe hbounded⟩
  | matchServs env globalServList source hit cap buf =>
    rw [FanOut.step]
    split
    · rename_i hall
      apply h.matchServs
      intro c hc
      have hc := List.all_eq_true.mp hall c hc
      simpa only [Bool.and_eq_true, decide_eq_true_eq, Bool.or_eq_true] using hc
    · exact ⟨s, rfl, h⟩

theorem Settled.run (h : s.Settled) (ops : List FanOp) : ∃ t, s.run ops = some t ∧ t.Settled := by
  induction ops generalizing s with
  | nil => exact ⟨s, rfl, h⟩
  | cons op ops ih =>
    obtain ⟨t, hstep, ht⟩ := h.step op
    obtain ⟨u, hrun, hu⟩ := ih ht
    refine ⟨u, ?_, hu⟩
    rw [FanOut.run, List.foldlM_cons, hstep]
    exact hrun

theorem settled_start (cf : Config) (key : Nat) : (start cf key).Settled where
  bounded _ := Nat.le_refl 0
  people _ _ hx := by cases hx
  alive _ hc := by cases hc
  routed _ hc := absurd hc (Nat.not_lt_zero _)
  opers _ hoper := absurd hoper List.not_mem_nil

/-- After any run, a line to a channel and a line to those who share a channel with a user
go once to everybody to whom they are due, and to nobody else. Only a connection that has
died in the call may have been left out. -/
theorem fan_out_once (cf : Config) (key : Nat) (ops : List FanOp) :
    ∃ s, (start cf key).run ops = some s ∧
      (∀ env one source ch command text, ∃ t,
        s.sendtoChannelButone env one source ch command text = some t ∧
          ∀ c, Served (s.ButoneDue one ch c)
            (s.bufFor (channelLines (s.client source)
              (((s.base.chans ch).map ChannelData.chname).getD []) command text) c) s t c) ∧
      ∀ env user touser text c, Served (s.CommonDue user touser c) (sendFormat text) s
        (s.sendtoCommonChannelsLocal env user touser text) c := by
  obtain ⟨s, hrun, h⟩ := (settled_start cf key).run ops
  refine ⟨s, hrun, fun env one source ch command text => ?_, fun env user touser text => ?_⟩
  · obtain ⟨t, hcall, -, -, hserved⟩ := sendtoChannelButone_served env h.bounded h.routedMember
      h.operLocal one source ch command text
    exact ⟨t, hcall, hserved⟩
  · exact (sendtoCommonChannelsLocal_served env h.bounded user touser text).2.2

/-- A server with a deaf user behind it, who joins a channel. -/
def deafMember : List FanOp :=
  [.member (.introduce { (default : Client) with
      status := .server, name := "leaf".toList, localClient := some ⟨0, 0⟩ }),
    .member (.introduce { (default : Client) with
      status := .client, name := "ann".toList, umodes := {.deaf} }),
    .member (.remoteJoin MemberState.quietEnv 1 ["1".toList, "#c".toList, "+".toList])]

/-- Room for every line, and nothing is written. -/
def roomyEnv : SendEnv where
  getSendq _ := 100000
  write _ length := some length
  notice _ _ := []
  introduction _ _ := []

/-- The server of a member who is deaf gets no line to the channel. -/
theorem deaf_member_hides_link : ((start default 7).run deafMember).bind (fun s =>
    (s.sendtoChannelButone roomyEnv none 5 0 "PRIVMSG".toList ":hi".toList).map fun t =>
      ((s.base.members 0).map fun m => (s.base.member m).map Member.client, t.lines 0)) =
    some ([some 1], []) := by
  decide +kernel

end FanOut

end Ircd
