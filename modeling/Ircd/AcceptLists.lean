import Ircd.FanOutRuns
import Ircd.Lib.Mirror

/-!
Whom a client accepts messages from: ACCEPT (`m_accept.c`), `accept_message` and the
two lists that keep it (`client.c`).

`accept_lists_symmetric_iff` says that in any run the lists of both sides agree, and
that `accept_message` answers for them; it does not see the channels that a client with
`+G` shares with the source, since it takes the memberships of the target for channels.

The replies to the client are left out.
-/

namespace Ircd

open Function

/-- What a node of a list may point to. Objects in use at the same time are at different
addresses. -/
inductive ListData where
  | channel (ch : Nat)
  | membership (m : Nat)
  deriving DecidableEq, Repr

/-- The channels and clients, with `allow_list` and `on_allow_list` of each client. -/
structure AcceptState extends MemberState where
  maxAccept : Nat
  allowList : Cid → List Cid := fun _ => []
  onAllowList : Cid → List Cid := fun _ => []

namespace AcceptState

variable (s : AcceptState)

/-- `IsSoftCallerId`. -/
def isSoftCallerId (c : Cid) : Bool := decide (.softcallerid ∈ (s.clients c).umodes)

/-- `IsMember`: `find_channel_link` with what is passed for the channel. -/
def isMember (who : Cid) (chan : ListData) : Bool :=
  (s.clients who).isClient &&
    (s.channel who).any fun m => (s.member m).any fun ms => ListData.channel ms.chptr == chan

/-- `accept_message`. The nodes of `channel` point to memberships. -/
def acceptMessage (source target : Cid) : Bool :=
  (s.allowList target).any (source == ·) ||
    (s.isSoftCallerId target &&
      (s.channel target).any fun m => s.isMember source (.membership m))

/-- `del_from_accept`. -/
def delFromAccept (source target : Cid) : AcceptState :=
  if source ∈ s.allowList target then
    { s with
      allowList :=
        update s.allowList target ((s.allowList target).filter (· ≠ source))
      onAllowList :=
        update s.onAllowList source ((s.onAllowList source).filter (· ≠ target)) }
  else s

/-- The second loop of `del_all_accepts`, which is `del_all_their_accepts`. The walk is one
over the list as it was: each turn takes its own node out. -/
def delAllTheirAccepts (client : Cid) : AcceptState :=
  (s.onAllowList client).foldl (fun s target => s.delFromAccept client target) s

/-- `del_all_accepts`. -/
def delAllAccepts (client : Cid) : AcceptState :=
  ((s.allowList client).foldl (fun s source => s.delFromAccept source client) s).delAllTheirAccepts
    client

/-- `add_accept`. -/
def addAccept (source target : Cid) : AcceptState :=
  { s with
    allowList := Buckets.add s.allowList source target
    onAllowList := Buckets.add s.onAllowList target source }

/-- The check of `m_accept` and `build_nicklist` on a nick: `find_client` and `IsClient`. -/
def findUser (findClient : CStr → Option Cid) (nick : CStr) : Option Cid :=
  ((findClient nick).filter s.alive).filter fun c => (s.clients c).isClient

/-- The loop of `build_nicklist`: the nicks to add and those to delete, each text with
commas between. -/
def buildNicklist (findClient : CStr → Option Cid) : List CStr → CStr × CStr → CStr × CStr
  | [], bufs => bufs
  | word :: words, (addbuf, delbuf) =>
    let isDel := word.head? = some '-'
    let name := if isDel then word.tail else word
    if s.findUser findClient name = none then buildNicklist findClient words (addbuf, delbuf)
    else
      let append (buf : CStr) : CStr :=
        strlcpy ((if buf = [] then [] else strlcpy (buf ++ [',']) IRCD_BUFSIZE) ++ name) IRCD_BUFSIZE
      buildNicklist findClient words
        (if isDel then (addbuf, append delbuf) else (append addbuf, delbuf))

def delNick (findClient : CStr → Option Cid) (source : Cid) (nick : CStr) : AcceptState :=
  match s.findUser findClient nick with
  | none => s
  | some target =>
    if !s.acceptMessage target source then s else s.delFromAccept target source

/-- The loop over the add list, with `accept_num`, which counts every turn. -/
def addNicks (findClient : CStr → Option Cid) (source : Cid) :
    List CStr → Nat → AcceptState → AcceptState
  | [], _, s => s
  | nick :: nicks, acceptNum, s =>
    match s.findUser findClient nick with
    | none => addNicks findClient source nicks (acceptNum + 1) s
    | some target =>
      if s.acceptMessage target source then addNicks findClient source nicks (acceptNum + 1) s
      else if s.maxAccept ≤ acceptNum then s
      else addNicks findClient source nicks (acceptNum + 1) (s.addAccept source target)

/-- `m_accept`. -/
def mAccept (findClient : CStr → Option Cid) (source : Cid) (parv : List CStr) : AcceptState :=
  match parv with
  | [] => s
  | nicks :: _ =>
    if nicks.head? = some '*' then s
    else
      let (addbuf, delbuf) := s.buildNicklist findClient (commaTokens nicks) ([], [])
      let s := (commaTokens delbuf).foldl (fun s nick => s.delNick findClient source nick) s
      addNicks findClient source (commaTokens addbuf) (s.allowList source).length s

end AcceptState

/-- What happens: ACCEPT, a nick change of a local client, and all that happens to the
clients and channels; a nick change of a remote client is a `change`. -/
inductive AcceptOp where
  | accept (findClient : CStr → Option Cid) (source : Cid) (parv : List CStr)
  | changeLocalNick (who : Cid) (record : Client)
  | member (op : MemberOp)

namespace AcceptState

/-- One step. ACCEPT is for registered clients of this server; an exit of a user clears
the lists. -/
def step (s : AcceptState) : AcceptOp → AcceptState
  | .accept findClient source parv =>
    if s.alive source ∧ (s.clients source).myClient then s.mAccept findClient source parv else s
  | .changeLocalNick who record =>
    if s.alive who ∧ (s.clients who).myClient ∧ record.Follows (s.clients who) then
      ({ s with toMemberState := s.toMemberState.step (.change who record) } :
        AcceptState).delAllTheirAccepts who
    else s
  | .member op =>
    let s' :=
      match op with
      | .exit who =>
        if s.alive who ∧ (s.clients who).isClient then s.delAllAccepts who else s
      | _ => s
    { s' with toMemberState := s'.toMemberState.step op }

/-- The state of a server that has just started. -/
def start (cf : Config) (ircdRandomKey maxAccept : Nat) : AcceptState where
  toMemberState := MemberState.start cf ircdRandomKey
  maxAccept := maxAccept

/-- Two clients are on a channel together. -/
def ShareChannel (s : AcceptState) (c d : Cid) : Prop :=
  ∃ m ∈ s.channel c, ∃ n ∈ s.channel d, ∃ x ∈ s.member m, ∃ y ∈ s.member n, x.chptr = y.chptr

/-- Both lists have the same pairs, each once, of users that have not exited, and no
accept list is longer than `max_accept`. -/
structure Paired (s : AcceptState) : Prop where
  symmetric : ∀ t c, c ∈ s.allowList t ↔ t ∈ s.onAllowList c
  nodup : ∀ c, (s.allowList c).Nodup ∧ (s.onAllowList c).Nodup
  living : ∀ t c, c ∈ s.allowList t → s.alive c = true ∧ s.alive t = true
  bounded : ∀ c, (s.allowList c).length ≤ s.maxAccept

/-- `accept_message` is right about a pair: it answers whether the source is on the list
of the target, or the two share a channel and the target is content with that. -/
def MessageRight (s : AcceptState) (source target : Cid) : Prop :=
  s.acceptMessage source target = true ↔
    source ∈ s.allowList target ∨
      (s.isSoftCallerId target = true ∧ s.ShareChannel source target)

/-! ### `accept_message` -/

variable {s t : AcceptState} {source target client c : Cid} {findClient : CStr → Option Cid}

theorem isMember_membership (s : AcceptState) (who : Cid) (m : Nat) :
    s.isMember who (.membership m) = false := by
  rw [isMember, Bool.and_eq_false_iff]
  right
  rw [List.any_eq_false]
  rintro n -
  cases s.member n with
  | none => exact Bool.false_ne_true
  | some ms => simp

theorem acceptMessage_iff : s.acceptMessage source target = true ↔ source ∈ s.allowList target := by
  have hchannels : ((s.channel target).any fun m => s.isMember source (.membership m)) = false := by
    rw [List.any_eq_false]
    intro m _
    rw [isMember_membership]
    exact Bool.false_ne_true
  rw [acceptMessage, hchannels, Bool.and_false, Bool.or_false, List.any_eq_true]
  simp

theorem messageRight_iff : s.MessageRight source target ↔
    ¬(s.isSoftCallerId target = true ∧ source ∉ s.allowList target ∧
      s.ShareChannel source target) := by
  rw [MessageRight, acceptMessage_iff]
  tauto

/-! ### The invariant -/

/-- The lists mirror each other, and are those of users. -/
structure Inv (s : AcceptState) : Prop where
  mirror : Mirror s.allowList s.onAllowList
  users : ∀ t c, c ∈ s.allowList t → (s.alive c = true ∧ (s.clients c).isClient = true) ∧
    s.alive t = true ∧ (s.clients t).isClient = true
  bounded : ∀ c, (s.allowList c).length ≤ s.maxAccept
  introduced : ∀ c, s.alive c = true → c < s.nextClient

theorem Inv.paired (h : s.Inv) : s.Paired where
  symmetric _ _ := h.mirror.mem
  nodup c := ⟨h.mirror.nodup c, h.mirror.nodup' c⟩
  living t c hc := ⟨(h.users t c hc).1.1, (h.users t c hc).2.1⟩
  bounded := h.bounded

/-- Nothing but the lists has changed, and they have lost entries only. -/
structure Strikes (s t : AcceptState) : Prop where
  base : t.toMemberState = s.toMemberState
  maxAccept : t.maxAccept = s.maxAccept
  allowList : ∀ c, (t.allowList c).Sublist (s.allowList c)
  onAllowList : ∀ c, (t.onAllowList c).Sublist (s.onAllowList c)

theorem Strikes.refl (s : AcceptState) : Strikes s s :=
  ⟨rfl, rfl, fun _ => List.Sublist.refl _, fun _ => List.Sublist.refl _⟩

theorem Strikes.trans {u : AcceptState} (h : Strikes s t) (h' : Strikes t u) : Strikes s u where
  base := h'.base.trans h.base
  maxAccept := h'.maxAccept.trans h.maxAccept
  allowList c := (h'.allowList c).trans (h.allowList c)
  onAllowList c := (h'.onAllowList c).trans (h.onAllowList c)

theorem Inv.strikes (h : s.Inv) (hst : Strikes s t) (hmirror : Mirror t.allowList t.onAllowList) :
    t.Inv where
  mirror := hmirror
  users x c hc := by
    rw [hst.base]
    exact h.users x c ((hst.allowList x).subset hc)
  bounded c := by
    rw [hst.maxAccept]
    exact (hst.allowList c).length_le.trans (h.bounded c)
  introduced := by
    rw [hst.base]
    exact h.introduced

theorem del_sublist (f : Cid → List Cid) (a b c : Cid) : (Buckets.del f a b c).Sublist (f c) := by
  by_cases hc : c = a
  · subst hc
    rw [Buckets.del, update_self]
    exact List.erase_sublist
  · rw [Buckets.del, update_of_ne hc]

theorem Inv.delFromAccept (h : s.Inv) (source target : Cid) :
    (s.delFromAccept source target).Inv ∧ Strikes s (s.delFromAccept source target) ∧
      source ∉ (s.delFromAccept source target).allowList target ∧
      target ∉ (s.delFromAccept source target).onAllowList source := by
  have hdel : s.delFromAccept source target =
      { s with
        allowList := Buckets.del s.allowList target source
        onAllowList := Buckets.del s.onAllowList source target } := by
    unfold AcceptState.delFromAccept
    split
    · rw [Mirror.del_eq_filter (h.mirror.nodup target), Mirror.del_eq_filter (h.mirror.nodup' source)]
    · next hsource =>
        rw [Mirror.del_eq hsource, Mirror.del_eq fun htarget => hsource (h.mirror.mem.mpr htarget)]
  rw [hdel]
  have hmirror := h.mirror.unlink target source
  have hst : Strikes s
      { s with
        allowList := Buckets.del s.allowList target source
        onAllowList := Buckets.del s.onAllowList source target } :=
    ⟨rfl, rfl, del_sublist _ _ _, del_sublist _ _ _⟩
  have hout : source ∉ Buckets.del s.allowList target source target := by
    rw [Mirror.mem_del h.mirror.nodup]
    simp
  exact ⟨h.strikes hst hmirror, hst, hout, fun hmem => hout (hmirror.mem.mpr hmem)⟩

theorem Inv.delAllTheirAccepts (h : s.Inv) (client : Cid) :
    (s.delAllTheirAccepts client).Inv ∧ Strikes s (s.delAllTheirAccepts client) ∧
      (s.delAllTheirAccepts client).onAllowList client = [] := by
  obtain ⟨hinv, hst, hout⟩ := Loops.foldl_reaches (I := Inv) (L := Strikes)
    (R := fun target t => target ∉ t.onAllowList client) (l := s.onAllowList client)
    Strikes.refl (fun _ _ _ => Strikes.trans)
    (fun target u v huv hu hv => hu ((huv.onAllowList client).subset hv))
    (fun target _ u hu => by
      obtain ⟨hinv, hst, -, hout⟩ := hu.delFromAccept client target
      exact ⟨hinv, hst, hout⟩) h
  refine ⟨hinv, hst, List.eq_nil_iff_forall_not_mem.mpr fun target htarget => ?_⟩
  exact hout target ((hst.onAllowList client).subset htarget) htarget

theorem Inv.delAllAccepts (h : s.Inv) (client : Cid) :
    (s.delAllAccepts client).Inv ∧ Strikes s (s.delAllAccepts client) ∧
      (s.delAllAccepts client).allowList client = [] ∧
      (s.delAllAccepts client).onAllowList client = [] := by
  obtain ⟨hinv, hst, hout⟩ := Loops.foldl_reaches (I := Inv) (L := Strikes)
    (R := fun source t => source ∉ t.allowList client) (l := s.allowList client)
    Strikes.refl (fun _ _ _ => Strikes.trans)
    (fun source u v huv hu hv => hu ((huv.allowList client).subset hv))
    (fun source _ u hu => by
      obtain ⟨hinv, hst, hout, -⟩ := hu.delFromAccept source client
      exact ⟨hinv, hst, hout⟩) h
  obtain ⟨hinv', hst', hnil⟩ := hinv.delAllTheirAccepts client
  refine ⟨hinv', hst.trans hst', List.eq_nil_iff_forall_not_mem.mpr fun source hsource => ?_, hnil⟩
  have hold := (hst'.allowList client).subset hsource
  exact hout source ((hst.allowList client).subset hold) hold

/-! ### ACCEPT -/

theorem findUser_spec {nick : CStr} (h : s.findUser findClient nick = some c) :
    s.alive c = true ∧ (s.clients c).isClient = true := by
  rw [findUser, Option.filter_eq_some_iff] at h
  obtain ⟨hfound, hclient⟩ := h
  rw [Option.filter_eq_some_iff] at hfound
  exact ⟨hfound.2, hclient⟩

theorem Inv.addAccept (h : s.Inv)
    (hsource : s.alive source = true ∧ (s.clients source).isClient = true)
    (htarget : s.alive target = true ∧ (s.clients target).isClient = true)
    (hnew : target ∉ s.allowList source) (hroom : (s.allowList source).length < s.maxAccept) :
    (s.addAccept source target).Inv where
  mirror := h.mirror.link hnew
  users t c hc := by
    rcases Mirror.mem_add.mp hc with hold | ⟨rfl, rfl⟩
    · exact h.users t c hold
    · exact ⟨htarget, hsource⟩
  bounded c := by
    change (Buckets.add s.allowList source target c).length ≤ s.maxAccept
    by_cases hc : c = source
    · subst hc
      rw [Buckets.add, update_self]
      exact hroom
    · rw [Buckets.add, update_of_ne hc]
      exact h.bounded c
  introduced := h.introduced

theorem Inv.addNicks {nicks : List CStr} {acceptNum : Nat} (h : s.Inv)
    (hsource : s.alive source = true ∧ (s.clients source).isClient = true)
    (hnum : (s.allowList source).length ≤ acceptNum) :
    (AcceptState.addNicks findClient source nicks acceptNum s).Inv := by
  induction nicks generalizing s acceptNum with
  | nil => exact h
  | cons nick nicks ih =>
    rw [AcceptState.addNicks]
    split
    · exact ih h hsource (Nat.le_succ_of_le hnum)
    · next target htarget =>
        split
        · exact ih h hsource (Nat.le_succ_of_le hnum)
        · next haccept =>
            split
            · exact h
            · next hroom =>
                have hnew : target ∉ s.allowList source := fun hmem =>
                  haccept (acceptMessage_iff.mpr hmem)
                have hadd := h.addAccept hsource (findUser_spec htarget) hnew (by omega)
                refine ih hadd hsource ?_
                change (Buckets.add s.allowList source target source).length ≤ _
                rw [Buckets.add, update_self]
                exact Nat.succ_le_succ hnum

variable (findClient) in
theorem Inv.delNicks (h : s.Inv) (source : Cid) (nicks : List CStr) :
    (nicks.foldl (fun s nick => s.delNick findClient source nick) s).Inv ∧
      Strikes s (nicks.foldl (fun s nick => s.delNick findClient source nick) s) := by
  have hloop := Loops.foldl_reaches (I := Inv) (L := Strikes) (R := fun _ _ => True) (l := nicks)
    (f := fun s nick => s.delNick findClient source nick)
    Strikes.refl (fun _ _ _ => Strikes.trans) (fun _ _ _ _ _ => trivial) (fun nick _ u hu => by
      unfold delNick
      split
      · exact ⟨hu, Strikes.refl u, trivial⟩
      · next target _ =>
          split
          · exact ⟨hu, Strikes.refl u, trivial⟩
          · obtain ⟨hinv, hst, -⟩ := hu.delFromAccept target source
            exact ⟨hinv, hst, trivial⟩) h
  exact ⟨hloop.1, hloop.2.1⟩

theorem Inv.mAccept (h : s.Inv) (findClient : CStr → Option Cid)
    (hsource : s.alive source = true ∧ (s.clients source).isClient = true) (parv : List CStr) :
    (s.mAccept findClient source parv).Inv := by
  cases parv with
  | nil => exact h
  | cons nicks rest =>
    simp only [AcceptState.mAccept]
    split
    · exact h
    · obtain ⟨hinv, hst⟩ := h.delNicks findClient source
        (commaTokens (s.buildNicklist findClient (commaTokens nicks) ([], [])).2)
      refine hinv.addNicks ?_ (Nat.le_refl _)
      rw [hst.base]
      exact hsource

/-! ### Runs -/

theorem Inv.base (h : s.Inv) {base : MemberState}
    (hbase : MemberState.Carries s.toMemberState base) :
    ({ s with toMemberState := base } : AcceptState).Inv where
  mirror := h.mirror
  users t c hc := by
    obtain ⟨⟨hc, hcUser⟩, ht, htUser⟩ := h.users t c hc
    exact ⟨⟨hbase.alive c hc, hbase.users c hc hcUser⟩, hbase.alive t ht, hbase.users t ht htUser⟩
  bounded := h.bounded
  introduced := hbase.introduced h.introduced

theorem Inv.exit (h : s.Inv) (who : Cid) : (s.step (.member (.exit who))).Inv := by
  rw [AcceptState.step]
  obtain ⟨t, ht, hst, hout⟩ : ∃ t : AcceptState, t.Inv ∧ Strikes s t ∧
      (if s.alive who = true ∧ (s.clients who).isClient = true then s.delAllAccepts who else s) = t ∧
      (s.alive who = true → ∀ x c, c ∈ t.allowList x → c ≠ who ∧ x ≠ who) := by
    split
    · obtain ⟨hinv, hst, hallow, honAllow⟩ := h.delAllAccepts who
      refine ⟨_, hinv, hst, rfl, fun _ x c hc => ⟨?_, ?_⟩⟩
      · rintro rfl
        rw [hinv.mirror.mem, honAllow] at hc
        cases hc
      · rintro rfl
        rw [hallow] at hc
        cases hc
    · next hnot =>
        refine ⟨s, h, Strikes.refl s, rfl, fun halive x c hc => ⟨?_, ?_⟩⟩
        · rintro rfl
          exact hnot (h.users x c hc).1
        · rintro rfl
          exact hnot (h.users x c hc).2
  rw [hout.1, MemberState.step]
  split
  · next halive =>
      rw [hst.base] at halive
      obtain ⟨u, hmoves, hexit⟩ := MemberState.moves_exitOneClient t.toMemberState who
      rw [hexit]
      refine ⟨ht.mirror, fun x c hc => ?_, ht.bounded, fun c hc => ?_⟩
      · obtain ⟨hcne, hxne⟩ := hout.2 halive x c hc
        have hends := ht.users x c hc
        rw [← hmoves.alive, ← hmoves.clients] at hends
        change (update u.alive who false c = true ∧ _) ∧
          update u.alive who false x = true ∧ _
        rwa [update_of_ne hcne, update_of_ne hxne]
      · change c < u.nextClient
        have hc : update u.alive who false c = true := hc
        have hne : c ≠ who := by
          rintro rfl
          rw [update_self] at hc
          cases hc
        rw [update_of_ne hne, hmoves.alive] at hc
        rw [hmoves.nextClient]
        exact ht.introduced c hc
  · exact ht

theorem Inv.step (h : s.Inv) (op : AcceptOp) : (s.step op).Inv := by
  cases op with
  | accept findClient source parv =>
    rw [AcceptState.step]
    split
    · next hsource =>
        refine h.mAccept findClient ⟨hsource.1, ?_⟩ parv
        exact (Bool.and_eq_true_iff.mp hsource.2).2
    · exact h
  | changeLocalNick who record =>
    rw [AcceptState.step]
    split
    · exact ((h.base (MemberState.carries_change _ who record)).delAllTheirAccepts who).1
    · exact h
  | member op =>
    cases hop : op with
    | introduce record => exact h.base (MemberState.carries_introduce h.introduced record)
    | change who record => exact h.base (MemberState.carries_change _ who record)
    | exit who => exact h.exit who
    | _ =>
      have hmoves := MemberState.moves_step op (by simp [hop]) (by simp [hop]) (by simp [hop])
        s.toMemberState
      rw [hop] at hmoves
      exact h.base hmoves.carries

theorem inv_start (cf : Config) (key maxAccept : Nat) : (start cf key maxAccept).Inv where
  mirror := Mirror.empty
  users _ _ hc := by cases hc
  bounded _ := Nat.zero_le _
  introduced _ hc := by cases hc

end AcceptState

/-- In every run the two lists agree, and `accept_message` is right about a source and a
target unless the target has `+G`, has not accepted the source, and is on a channel with it. -/
theorem accept_lists_symmetric_iff (cf : Config) (key maxAccept : Nat) (ops : List AcceptOp)
    (source target : Cid) :
    let s := Run.exec AcceptState.step (AcceptState.start cf key maxAccept) ops
    s.Paired ∧ (s.MessageRight source target ↔
      ¬(s.isSoftCallerId target = true ∧ source ∉ s.allowList target ∧
        s.ShareChannel source target)) := by
  intro s
  have hstep : ∀ (s : AcceptState) (op : AcceptOp), s.Inv → True → (s.step op).Inv :=
    fun s op hs _ => hs.step op
  have hinv : s.Inv := Run.inv_exec hstep (AcceptState.inv_start cf key maxAccept)
    (Run.guarded_true _ ops)
  exact ⟨hinv.paired, AcceptState.messageRight_iff⟩

/-- Two users join a channel, and the second one has `+G`. -/
def sharedChannelRun : List AcceptOp :=
  [.member (.introduce MemberState.localUser),
    .member (.introduce { MemberState.localUser with umodes := {.softcallerid} }),
    .member (.join MemberState.quietEnv 0 ["#c".toList]),
    .member (.join MemberState.quietEnv 1 ["#c".toList])]

/-- The user with `+G` does not accept messages from the other one. -/
theorem accept_message_misses_sharedChannel :
    ¬ ∀ cf key maxAccept ops source target,
      let s := Run.exec AcceptState.step (AcceptState.start cf key maxAccept) ops
      s.Paired ∧ s.MessageRight source target := by
  intro h
  obtain ⟨-, hright⟩ := h default 0 20 sharedChannelRun 0 1
  refine AcceptState.messageRight_iff.mp hright ⟨by decide +kernel, by decide +kernel, ?_⟩
  refine ⟨0, by decide +kernel, 1, by decide +kernel, ?_⟩
  exact ⟨⟨0, 0, {.chanop}⟩, rfl, ⟨1, 0, ∅⟩, rfl, rfl⟩

end Ircd
