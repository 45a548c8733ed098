import Ircd.FanOutRuns
import Ircd.Lib.Mirror

/-!
Invitations: INVITE (`m_invite.c`), and the two lists that keep them (`channel.c`).

The lists change in `add_invite`, in `m_join` behind a join, with the end of a channel and
with the exit of a client. `invites_paired_iff` says that the lists of clients and channels
agree in any run, and that only the oldest invitation of a client is dropped for a new one;
where `max_chans_per_user` is 0 there is none to drop, and `add_invite` follows a null
pointer.

The lines to the clients and servers are left out.
-/

namespace Ircd

open Function

/-- The channels and clients, with the invitations of each. -/
structure InviteState extends MemberState where
  maxChansPerUser : Nat
  invites : Nat → List Cid := fun _ => []
  invited : Cid → List Nat := fun _ => []

/-- What INVITE finds: the tables of clients, and `invite_ops_only`. -/
structure InviteEnv extends MemberEnv where
  inviteOpsOnly : Bool

namespace InviteState

variable (s : InviteState)

/-- `del_invite`. -/
def delInvite (ch : Nat) (who : Cid) : InviteState :=
  { s with
    invited := Buckets.del s.invited who ch
    invites := Buckets.del s.invites ch who }

/-- The end of `add_invite`. -/
def linkInvite (ch : Nat) (who : Cid) : InviteState :=
  { s with
    invites := Buckets.add s.invites ch who
    invited := Buckets.add s.invited who ch }

/-- `add_invite`; `none` when `tail->data` is read of an empty list. -/
def addInvite (ch : Nat) (who : Cid) : Option InviteState :=
  let s := s.delInvite ch who
  if s.maxChansPerUser ≤ (s.invited who).length then
    match (s.invited who).getLast? with
    | none => none
    | some tail => some ((s.delInvite tail who).linkInvite ch who)
  else some (s.linkInvite ch who)

/-- `destroy_channel`. -/
def destroyChannel (ch : Nat) : InviteState :=
  let s := (s.invites ch).foldl (fun s who => s.delInvite ch who) s
  { s with toMemberState := s.toMemberState.destroyChannel ch }

/-- `remove_user_from_channel`. -/
def removeUserFromChannel (m : Nat) : InviteState :=
  match s.member m with
  | none => s
  | some ms =>
    let s := { s with toMemberState := s.toMemberState.unlinkMember m ms }
    if s.members ms.chptr = [] then s.destroyChannel ms.chptr else s

/-- `exit_one_client`: a client leaves its channels, and its invitations end. -/
def exitOneClient (who : Cid) : InviteState :=
  let s :=
    if (s.clients who).isClient then
      let s := (s.channel who).foldl (fun s m => s.removeUserFromChannel m) s
      (s.invited who).foldl (fun s ch => s.delInvite ch who) s
    else s
  { s with alive := update s.alive who false }

/-- The checks of `m_invite`: the channel and the client for `add_invite`, if it comes
so far. -/
def inviteTarget (env : InviteEnv) (client source : Cid) (parv : List CStr) :
    Option (Nat × Cid) :=
  match parv with
  | nick :: chan :: ts =>
    if (s.clients source).isServer || chan.isEmpty then none
    else
      match findPerson (s.dir env.toMemberEnv) (s.clients client) nick with
      | none => none
      | some target =>
        if !(s.clients target).myConnect && chan.head? == some '&' then none
        else
          match s.hashFindChannel chan with
          | none => none
          | some ch =>
            match s.chans ch, s.findChannelLink source ch with
            | some c, some ms =>
              let inviteonly := decide (.inviteonly ∈ c.mode.mode)
              let islocal := (s.clients source).myConnect
              if (env.inviteOpsOnly || inviteonly) && islocal &&
                  decide (Disjoint (s.memberFlags (some ms)) {.chanop, .halfop}) then none
              else if (s.findChannelLink target ch).isSome then none
              else if !islocal &&
                  (ts.head?.any fun t => startsWithDigit t && decide (c.channelts < atoi t)) then none
              else if (s.clients target).myConnect && inviteonly then some (ch, target)
              else none
            | _, _ => none
  | _ => none

/-- `m_invite`. -/
def mInvite (env : InviteEnv) (client source : Cid) (parv : List CStr) : Option InviteState :=
  match s.inviteTarget env client source parv with
  | none => some s
  | some (ch, who) => s.addInvite ch who

end InviteState

/-- What happens to the clients and channels: `introduce`, `change` and `data` stand for what
makes a client, changes its record and changes the modes of a channel; `join` is the end of
`m_join` for a channel, and `addUser` and `removeUser` the other ways onto channels and off. -/
inductive InviteOp where
  | introduce (record : Client)
  | change (who : Cid) (record : Client)
  | data (ch : Nat) (c : ChannelData)
  | createChannel (now : Int) (chname : CStr)
  | invite (env : InviteEnv) (client source : Cid) (parv : List CStr)
  | join (source : Cid) (ch : Nat) (flags : Finset ChFlag)
  | addUser (who : Cid) (ch : Nat) (flags : Finset ChFlag)
  | removeUser (m : Nat)
  | destroyChannel (ch : Nat)
  | exit (who : Cid)

namespace InviteState

/-- One step. The handlers are called for a source that has not exited, and clients are put
on channels that there are. -/
def step (s : InviteState) : InviteOp → Option InviteState
  | .introduce record =>
    some { s with toMemberState := s.toMemberState.step (.introduce record) }
  | .change who record =>
    some { s with toMemberState := s.toMemberState.step (.change who record) }
  | .data ch c => some { s with toMemberState := s.toMemberState.step (.data ch c) }
  | .createChannel now chname =>
    some { s with toMemberState := s.toMemberState.createChannel now chname }
  | .invite env client source parv =>
    if s.alive source then s.mInvite env client source parv else some s
  | .join source ch flags =>
    if s.alive source ∧ (s.chans ch).isSome then
      some (({ s with toMemberState := s.toMemberState.addUserToChannel ch source flags } :
        InviteState).delInvite ch source)
    else some s
  | .addUser who ch flags =>
    if s.alive who ∧ (s.chans ch).isSome then
      some { s with toMemberState := s.toMemberState.addUserToChannel ch who flags }
    else some s
  | .removeUser m => some (s.removeUserFromChannel m)
  | .destroyChannel ch => some (if s.members ch = [] then s.destroyChannel ch else s)
  | .exit who => some (if s.alive who then s.exitOneClient who else s)

/-- The step of a program that a null pointer has stopped before, or has not. -/
def stepped (s : Option InviteState) (op : InviteOp) : Option InviteState := s.bind (step · op)

/-- The state of a server that has just started. -/
def start (cf : Config) (ircdRandomKey maxChansPerUser : Nat) : InviteState where
  toMemberState := MemberState.start cf ircdRandomKey
  maxChansPerUser := maxChansPerUser

/-- Both lists have the same invitations, each once, of clients that have not exited and
to channels that there are, and no client has more than `max_chans_per_user`. -/
structure Paired (s : InviteState) : Prop where
  symmetric : ∀ c ch, ch ∈ s.invited c ↔ c ∈ s.invites ch
  nodup : (∀ c, (s.invited c).Nodup) ∧ ∀ ch, (s.invites ch).Nodup
  living : ∀ c ch, ch ∈ s.invited c → s.alive c = true ∧ s.chans ch ≠ none
  bounded : ∀ c, (s.invited c).length ≤ s.maxChansPerUser

/-- From one state to the next a client loses invitations, or gets a new one in front, and
then of the others only the oldest goes if there are too many. -/
def DropsOldest (s t : InviteState) : Prop :=
  ∀ c, (t.invited c).Sublist (s.invited c) ∨
    ∃ ch, t.invited c = ch :: ((s.invited c).erase ch).take (s.maxChansPerUser - 1)

/-- The step goes through, from lists that agree to lists that agree. -/
def StepRight (s : Option InviteState) (_ : InviteOp) (t : Option InviteState) : Prop :=
  ∃ s' t', s = some s' ∧ t = some t' ∧ s'.Paired ∧ t'.Paired ∧ DropsOldest s' t'

/-- An invitation that comes as far as `add_invite` finds room in principle. -/
def RoomForOne (s : Option InviteState) : InviteOp → Prop
  | .invite env client source parv => ∀ s', s = some s' → s'.alive source = true →
      s'.inviteTarget env client source parv ≠ none → s'.maxChansPerUser ≠ 0
  | _ => True

/-! ### The invariant -/

variable {s t u : InviteState} {ch : Nat} {who c : Cid}

/-- The lists mirror each other, and the invitations are of users. -/
structure Inv (s : InviteState) : Prop where
  mirror : Mirror s.invited s.invites
  users : ∀ c ch, ch ∈ s.invited c → (s.alive c = true ∧ (s.clients c).isClient = true) ∧
    s.chans ch ≠ none
  bounded : ∀ c, (s.invited c).length ≤ s.maxChansPerUser
  introduced : ∀ c, s.alive c = true → c < s.nextClient

theorem Inv.paired (h : s.Inv) : s.Paired where
  symmetric _ _ := h.mirror.mem
  nodup := ⟨h.mirror.nodup, h.mirror.nodup'⟩
  living c ch hch := ⟨(h.users c ch hch).1.1, (h.users c ch hch).2⟩
  bounded := h.bounded

/-- The clients are the same, and none has got an invitation. -/
structure Loses (s t : InviteState) : Prop where
  maxChansPerUser : t.maxChansPerUser = s.maxChansPerUser
  clients : t.clients = s.clients
  alive : t.alive = s.alive
  nextClient : t.nextClient = s.nextClient
  invited : ∀ c, (t.invited c).Sublist (s.invited c)

theorem Loses.refl (s : InviteState) : Loses s s :=
  ⟨rfl, rfl, rfl, rfl, fun _ => List.Sublist.refl _⟩

theorem Loses.trans (h : Loses s t) (h' : Loses t u) : Loses s u where
  maxChansPerUser := h'.maxChansPerUser.trans h.maxChansPerUser
  clients := h'.clients.trans h.clients
  alive := h'.alive.trans h.alive
  nextClient := h'.nextClient.trans h.nextClient
  invited c := (h'.invited c).trans (h.invited c)

theorem Loses.drops (h : Loses s t) : DropsOldest s t := fun c => Or.inl (h.invited c)

theorem Inv.loses (h : s.Inv) (hst : Loses s t) (hmirror : Mirror t.invited t.invites)
    (hchans : ∀ c ch, ch ∈ t.invited c → s.chans ch ≠ none → t.chans ch ≠ none) : t.Inv where
  mirror := hmirror
  users c ch hch := by
    obtain ⟨huser, hold⟩ := h.users c ch ((hst.invited c).subset hch)
    rw [hst.alive, hst.clients]
    exact ⟨huser, hchans c ch hch hold⟩
  bounded c := by
    rw [hst.maxChansPerUser]
    exact (hst.invited c).length_le.trans (h.bounded c)
  introduced := by
    rw [hst.alive, hst.nextClient]
    exact h.introduced

theorem Inv.base (h : s.Inv) {base : MemberState}
    (hbase : MemberState.Carries s.toMemberState base)
    (hchans : ∀ ch, s.chans ch ≠ none → base.chans ch ≠ none) :
    ({ s with toMemberState := base } : InviteState).Inv where
  mirror := h.mirror
  users c ch hch := by
    obtain ⟨⟨hc, huser⟩, hold⟩ := h.users c ch hch
    exact ⟨⟨hbase.alive c hc, hbase.users c hc huser⟩, hchans ch hold⟩
  bounded := h.bounded
  introduced := hbase.introduced h.introduced

/-! ### Invitations end -/

theorem Inv.delInvite (h : s.Inv) (ch : Nat) (who : Cid) :
    (s.delInvite ch who).Inv ∧ Loses s (s.delInvite ch who) ∧
      ch ∉ (s.delInvite ch who).invited who := by
  have hst : Loses s (s.delInvite ch who) := by
    refine ⟨rfl, rfl, rfl, rfl, fun c => ?_⟩
    by_cases hc : c = who
    · subst hc
      change (update s.invited c ((s.invited c).erase ch) c).Sublist _
      rw [update_self]
      exact List.erase_sublist
    · change (update s.invited who _ c).Sublist _
      rw [update_of_ne hc]
  refine ⟨h.loses hst (h.mirror.unlink who ch) fun _ _ _ hold => hold, hst, fun hmem => ?_⟩
  exact ((Mirror.mem_del h.mirror.nodup).mp hmem).2 ⟨rfl, rfl⟩

theorem Inv.destroyChannel (h : s.Inv) (ch : Nat) :
    (s.destroyChannel ch).Inv ∧ Loses s (s.destroyChannel ch) := by
  obtain ⟨hinv, ⟨hst, hchans⟩, hout⟩ := Loops.foldl_reaches (I := Inv)
    (L := fun s t => Loses s t ∧ t.chans = s.chans) (R := fun who t => ch ∉ t.invited who)
    (f := fun s who => s.delInvite ch who) (l := s.invites ch)
    (fun s => ⟨Loses.refl s, rfl⟩) (fun _ _ _ h h' => ⟨h.1.trans h'.1, h'.2.trans h.2⟩)
    (fun who _ _ hst hout hmem => hout ((hst.1.invited who).subset hmem))
    (fun who _ u hu => by
      obtain ⟨hinv, hst, hout⟩ := hu.delInvite ch who
      exact ⟨hinv, ⟨hst, rfl⟩, hout⟩) h
  obtain ⟨v, hmoves⟩ : ∃ t : InviteState,
      (s.invites ch).foldl (fun s who => s.delInvite ch who) s = t := ⟨_, rfl⟩
  rw [hmoves] at hinv hst hchans hout
  have hbase := MemberState.moves_destroyChannel (P := fun _ => True) v.toMemberState ch
  have heq : s.destroyChannel ch =
      { v with toMemberState := v.toMemberState.destroyChannel ch } := by
    rw [InviteState.destroyChannel, hmoves]
  have hst' : Loses s (s.destroyChannel ch) := by
    rw [heq]
    exact ⟨hst.maxChansPerUser, hbase.clients.trans hst.clients, hbase.alive.trans hst.alive,
      hbase.nextClient.trans hst.nextClient, hst.invited⟩
  refine ⟨h.loses hst' (by rw [heq]; exact hinv.mirror) fun c ch' hmem hold => ?_, hst'⟩
  rw [heq] at hmem ⊢
  have hne : ch' ≠ ch := by
    rintro rfl
    have hinvite : c ∈ s.invites ch' := h.mirror.mem.mp ((hst.invited c).subset hmem)
    exact hout c hinvite hmem
  change (v.toMemberState.destroyChannel ch).chans ch' ≠ none
  unfold MemberState.destroyChannel
  split
  · rwa [hchans]
  · change update v.chans ch none ch' ≠ none
    rwa [update_of_ne hne, hchans]

theorem Inv.removeUserFromChannel (h : s.Inv) (m : Nat) :
    (s.removeUserFromChannel m).Inv ∧ Loses s (s.removeUserFromChannel m) := by
  unfold InviteState.removeUserFromChannel
  split
  · exact ⟨h, Loses.refl s⟩
  · next ms _ =>
      have hunlink : ({ s with toMemberState := s.toMemberState.unlinkMember m ms } :
          InviteState).Inv :=
        h.base ⟨fun _ hc => hc, fun _ _ huser => huser, fun hold => hold⟩ fun _ hch => hch
      have hst : Loses s { s with toMemberState := s.toMemberState.unlinkMember m ms } :=
        ⟨rfl, rfl, rfl, rfl, fun _ => List.Sublist.refl _⟩
      dsimp only
      split
      · obtain ⟨hinv, hst'⟩ := hunlink.destroyChannel ms.chptr
        exact ⟨hinv, hst.trans hst'⟩
      · exact ⟨hunlink, hst⟩

theorem Inv.delInvites (h : s.Inv) (who : Cid) :
    ((s.invited who).foldl (fun s ch => s.delInvite ch who) s).Inv ∧
      Loses s ((s.invited who).foldl (fun s ch => s.delInvite ch who) s) ∧
      ((s.invited who).foldl (fun s ch => s.delInvite ch who) s).invited who = [] := by
  obtain ⟨hinv, hst, hout⟩ := Loops.foldl_reaches (I := Inv) (L := Loses)
    (R := fun ch t => ch ∉ t.invited who) (f := fun s ch => s.delInvite ch who)
    (l := s.invited who) Loses.refl (fun _ _ _ => Loses.trans)
    (fun ch _ _ hst hout hmem => hout ((hst.invited who).subset hmem))
    (fun ch _ u hu => hu.delInvite ch who) h
  refine ⟨hinv, hst, List.eq_nil_iff_forall_not_mem.mpr fun ch hch => ?_⟩
  exact hout ch ((hst.invited who).subset hch) hch

theorem Inv.leave (h : s.Inv) (hnil : s.invited who = []) :
    ({ s with alive := update s.alive who false } : InviteState).Inv where
  mirror := h.mirror
  users c ch hch := by
    have hne : c ≠ who := by
      rintro rfl
      change ch ∈ s.invited c at hch
      rw [hnil] at hch
      cases hch
    change (update s.alive who false c = true ∧ _) ∧ _
    rw [update_of_ne hne]
    exact h.users c ch hch
  bounded := h.bounded
  introduced c hc := by
    have hc : update s.alive who false c = true := hc
    have hne : c ≠ who := by
      rintro rfl
      rw [update_self] at hc
      cases hc
    rw [update_of_ne hne] at hc
    exact h.introduced c hc

theorem Inv.exitOneClient (h : s.Inv) (who : Cid) :
    (s.exitOneClient who).Inv ∧ ∀ c, ((s.exitOneClient who).invited c).Sublist (s.invited c) := by
  unfold InviteState.exitOneClient
  by_cases huser : (s.clients who).isClient = true
  · obtain ⟨hinv, hst, -⟩ := Loops.foldl_reaches (I := Inv) (L := Loses) (R := fun _ _ => True)
      (f := fun s m => s.removeUserFromChannel m) (l := s.channel who) Loses.refl
      (fun _ _ _ => Loses.trans) (fun _ _ _ _ _ => trivial) (fun m _ u hu =>
        ⟨(hu.removeUserFromChannel m).1, (hu.removeUserFromChannel m).2, trivial⟩) h
    obtain ⟨hinv', hst', hnil⟩ := hinv.delInvites who
    rw [if_pos huser]
    exact ⟨hinv'.leave hnil, fun c => (hst'.invited c).trans (hst.invited c)⟩
  · have hnil : s.invited who = [] := by
      rw [List.eq_nil_iff_forall_not_mem]
      exact fun ch hch => huser (h.users who ch hch).1.2
    rw [if_neg huser]
    exact ⟨h.leave hnil, fun _ => List.Sublist.refl _⟩

/-! ### An invitation -/

theorem erase_getLast {l : List Nat} {x : Nat} (hnodup : l.Nodup) (hx : l.getLast? = some x) :
    l.erase x = l.dropLast := by
  rcases List.eq_nil_or_concat l with rfl | ⟨xs, y, rfl⟩
  · cases hx
  · rw [List.concat_eq_append] at hnodup hx ⊢
    rw [List.getLast?_append, List.getLast?_singleton, Option.some_or, Option.some_inj] at hx
    subst hx
    have hout : y ∉ xs := fun hy =>
      List.disjoint_of_nodup_append hnodup hy List.mem_cons_self
    rw [List.erase_append_right _ hout, List.erase_cons_head, List.append_nil, List.dropLast_concat]

@[simp] theorem linkInvite_invited_self (s : InviteState) (ch : Nat) (who : Cid) :
    (s.linkInvite ch who).invited who = ch :: s.invited who := update_self _ _ _

theorem linkInvite_invited_of_ne (s : InviteState) (ch : Nat) (h : c ≠ who) :
    (s.linkInvite ch who).invited c = s.invited c := update_of_ne h _ _

theorem Inv.linkInvite (h : s.Inv) (huser : s.alive who = true ∧ (s.clients who).isClient = true)
    (hch : s.chans ch ≠ none) (hnew : ch ∉ s.invited who)
    (hroom : (s.invited who).length < s.maxChansPerUser) : (s.linkInvite ch who).Inv where
  mirror := h.mirror.link hnew
  users c ch' hmem := by
    rcases Mirror.mem_add.mp hmem with hold | ⟨rfl, rfl⟩
    · exact h.users c ch' hold
    · exact ⟨huser, hch⟩
  bounded c := by
    change ((s.linkInvite ch who).invited c).length ≤ s.maxChansPerUser
    by_cases hc : c = who
    · subst hc
      rw [linkInvite_invited_self]
      exact hroom
    · rw [linkInvite_invited_of_ne s ch hc]
      exact h.bounded c
  introduced := h.introduced

theorem Inv.addInvite (h : s.Inv) (huser : s.alive who = true ∧ (s.clients who).isClient = true)
    (hch : s.chans ch ≠ none) (hmax : s.maxChansPerUser ≠ 0) :
    ∃ t, s.addInvite ch who = some t ∧ t.Inv ∧ DropsOldest s t := by
  obtain ⟨hinv, hst, hout⟩ := h.delInvite ch who
  have hold : (s.delInvite ch who).invited who = (s.invited who).erase ch :=
    update_self _ _ _
  have hother : ∀ c ≠ who, (s.delInvite ch who).invited c = s.invited c := fun c hc =>
    update_of_ne hc _ _
  have hbound := hinv.bounded who
  have hmax' : (s.delInvite ch who).maxChansPerUser = s.maxChansPerUser := rfl
  simp only [InviteState.addInvite]
  split
  · next hfull =>
      cases hlast : ((s.delInvite ch who).invited who).getLast? with
      | none =>
        rw [List.getLast?_eq_none_iff.mp hlast] at hfull
        exact absurd (Nat.le_zero.mp hfull) hmax
      | some tail =>
        obtain ⟨hinv', hst', -⟩ := hinv.delInvite tail who
        have hdrop : ((s.delInvite ch who).delInvite tail who).invited who =
            ((s.invited who).erase ch).dropLast := by
          rw [← hold, ← erase_getLast (hinv.mirror.nodup who) hlast]
          exact update_self _ _ _
        have hlen : ((s.invited who).erase ch).length = s.maxChansPerUser := by
          rw [← hold]
          exact Nat.le_antisymm hbound hfull
        refine ⟨_, rfl, hinv'.linkInvite huser hch
          (fun hmem => hout ((hst'.invited who).subset hmem)) ?_, fun c => ?_⟩
        · rw [hdrop, List.length_dropLast, hlen]
          exact Nat.pred_lt hmax
        · by_cases hc : c = who
          · subst hc
            right
            refine ⟨ch, ?_⟩
            rw [linkInvite_invited_self, hdrop, List.dropLast_eq_take, hlen]
          · left
            rw [linkInvite_invited_of_ne _ ch hc]
            exact (hst.trans hst').invited c
  · next hroom =>
      refine ⟨_, rfl, hinv.linkInvite huser hch hout (Nat.lt_of_not_le hroom), fun c => ?_⟩
      by_cases hc : c = who
      · subst hc
        right
        refine ⟨ch, ?_⟩
        rw [hold] at hroom
        rw [linkInvite_invited_self, hold, List.take_of_length_le (by omega)]
      · left
        rw [linkInvite_invited_of_ne _ ch hc]
        exact hst.invited c

theorem Inv.addInvite_zero (h : s.Inv) (ch : Nat) (who : Cid) (hmax : s.maxChansPerUser = 0) :
    s.addInvite ch who = none := by
  obtain ⟨hinv, -, -⟩ := h.delInvite ch who
  have hnil : (s.delInvite ch who).invited who = [] := by
    rw [← List.length_eq_zero_iff, ← Nat.le_zero, ← hmax]
    exact hinv.bounded who
  have hfull : (s.delInvite ch who).maxChansPerUser ≤
      ((s.delInvite ch who).invited who).length := by
    rw [hnil]
    exact Nat.le_of_eq hmax
  simp only [InviteState.addInvite]
  rw [if_pos hfull, hnil]
  rfl

theorem inviteTarget_spec {env : InviteEnv} {client source : Cid} {parv : List CStr}
    (h : s.inviteTarget env client source parv = some (ch, who)) :
    (s.alive who = true ∧ (s.clients who).isClient = true) ∧ s.chans ch ≠ none := by
  unfold inviteTarget at h
  split at h
  · split at h
    · cases h
    · split at h
      · cases h
      · next target hperson =>
          split at h
          · cases h
          · split at h
            · cases h
            · next ch' _ =>
                split at h
                · next c ms hc _ =>
                    simp only at h
                    split_ifs at h
                    obtain ⟨rfl, rfl⟩ := Prod.mk.inj (Option.some.inj h)
                    exact ⟨MemberState.findPerson_alive hperson, by rw [hc]; simp⟩
                · cases h
  · cases h

/-! ### Runs -/

theorem keeps_set {α : Type} {f : Nat → Option α} {a b : Nat} {x : α} (h : f a ≠ none) :
    update f b (some x) a ≠ none := by
  by_cases ha : a = b
  · simp [ha]
  · rwa [update_of_ne ha]

theorem Inv.added (h : s.Inv) (ch : Nat) (who : Cid) (flags : Finset ChFlag) :
    ({ s with toMemberState := s.toMemberState.addUserToChannel ch who flags } :
      InviteState).Inv :=
  h.base ⟨fun _ hc => hc, fun _ _ huser => huser, fun hold => hold⟩ fun _ hch => hch

theorem Inv.step (h : s.Inv) {op : InviteOp} (hroom : RoomForOne (some s) op) :
    ∃ t, s.step op = some t ∧ t.Inv ∧ DropsOldest s t := by
  cases op with
  | introduce record =>
    exact ⟨_, rfl, h.base (MemberState.carries_introduce h.introduced record) fun _ hch => hch,
      (Loses.refl s).drops⟩
  | change who record =>
    refine ⟨_, rfl, h.base (MemberState.carries_change _ who record) fun ch hch => ?_,
      (Loses.refl s).drops⟩
    rw [MemberState.step]
    split
    · exact hch
    · exact hch
  | data ch c =>
    have hmoves := MemberState.moves_step (.data ch c) (by simp) (by simp) (by simp)
      s.toMemberState
    refine ⟨_, rfl, h.base hmoves.carries fun ch' hch => ?_, (Loses.refl s).drops⟩
    rw [MemberState.step]
    split
    · exact hch
    · exact keeps_set hch
  | createChannel now chname =>
    refine ⟨_, rfl, h.base ⟨fun _ hc => hc, fun _ _ huser => huser, fun hold => hold⟩
      fun ch hch => keeps_set hch, (Loses.refl s).drops⟩
  | invite env client source parv =>
    rw [InviteState.step]
    split
    · next hsource =>
        unfold mInvite
        split
        · exact ⟨s, rfl, h, (Loses.refl s).drops⟩
        · next ch who htarget =>
            obtain ⟨huser, hch⟩ := inviteTarget_spec htarget
            exact h.addInvite huser hch (hroom s rfl hsource (by rw [htarget]; simp))
    · exact ⟨s, rfl, h, (Loses.refl s).drops⟩
  | join source ch flags =>
    rw [InviteState.step]
    split
    · obtain ⟨hinv, hst, -⟩ := (h.added ch source flags).delInvite ch source
      exact ⟨_, rfl, hinv, hst.drops⟩
    · exact ⟨s, rfl, h, (Loses.refl s).drops⟩
  | addUser who ch flags =>
    rw [InviteState.step]
    split
    · exact ⟨_, rfl, h.added ch who flags, (Loses.refl s).drops⟩
    · exact ⟨s, rfl, h, (Loses.refl s).drops⟩
  | removeUser m =>
    obtain ⟨hinv, hst⟩ := h.removeUserFromChannel m
    exact ⟨_, rfl, hinv, hst.drops⟩
  | destroyChannel ch =>
    rw [InviteState.step]
    split
    · obtain ⟨hinv, hst⟩ := h.destroyChannel ch
      exact ⟨_, rfl, hinv, hst.drops⟩
    · exact ⟨s, rfl, h, (Loses.refl s).drops⟩
  | exit who =>
    rw [InviteState.step]
    split
    · obtain ⟨hinv, hsub⟩ := h.exitOneClient who
      exact ⟨_, rfl, hinv, fun c => Or.inl (hsub c)⟩
    · exact ⟨s, rfl, h, (Loses.refl s).drops⟩

theorem Inv.step_none (h : s.Inv) {op : InviteOp} (hroom : ¬RoomForOne (some s) op) :
    s.step op = none := by
  cases op with
  | invite env client source parv =>
    simp only [RoomForOne, not_forall, not_not] at hroom
    obtain ⟨s', hs', hsource, htarget, hmax⟩ := hroom
    obtain rfl := Option.some.inj hs'
    rw [InviteState.step, if_pos hsource]
    unfold mInvite
    split
    · next hnone => exact absurd hnone htarget
    · next ch who _ => exact h.addInvite_zero ch who hmax
  | _ => exact absurd trivial hroom

theorem inv_start (cf : Config) (key maxChansPerUser : Nat) :
    (start cf key maxChansPerUser).Inv where
  mirror := Mirror.empty
  users _ _ hch := by cases hch
  bounded _ := Nat.zero_le _
  introduced _ hc := by cases hc

end InviteState

/-- Every step of a run goes through, with lists that agree before and after it, and drops
only the oldest invitation for a new one, exactly if `max_chans_per_user` is not 0 when an
invitation comes to `add_invite`. -/
theorem invites_paired_iff (cf : Config) (key maxChansPerUser : Nat) (ops : List InviteOp) :
    (∀ pre op, pre ++ [op] <+: ops → InviteState.StepRight
      (Run.exec InviteState.stepped (some (InviteState.start cf key maxChansPerUser)) pre) op
      (Run.exec InviteState.stepped (some (InviteState.start cf key maxChansPerUser))
        (pre ++ [op]))) ↔
      Run.Guarded InviteState.stepped InviteState.RoomForOne
        (some (InviteState.start cf key maxChansPerUser)) ops := by
  have hstep : ∀ (o : Option InviteState) (op : InviteOp), (∃ s, o = some s ∧ s.Inv) →
      InviteState.RoomForOne o op → ∃ t, InviteState.stepped o op = some t ∧ t.Inv := by
    rintro - op ⟨s, rfl, hs⟩ hroom
    obtain ⟨t, ht, hinv, -⟩ := hs.step hroom
    exact ⟨t, ht, hinv⟩
  apply Run.steps_iff_guarded _ hstep
  · rintro - op ⟨s, rfl, hs⟩
    constructor
    · rintro ⟨s', t, -, ht, -⟩
      by_contra hroom
      have hnone : InviteState.stepped (some s) op = none := hs.step_none hroom
      rw [hnone] at ht
      cases ht
    · intro hroom
      obtain ⟨t, ht, hinv, hdrops⟩ := hs.step hroom
      exact ⟨s, t, rfl, ht, hs.paired, hinv.paired, hdrops⟩
  · exact ⟨_, rfl, InviteState.inv_start cf key maxChansPerUser⟩

def findsOne : InviteEnv :=
  { MemberState.quietEnv with
    findClient := fun _ => some 1
    inviteOpsOnly := false }

/-- A remote user on a channel with `+i` invites a local one. -/
def inviteToChannel : List InviteOp :=
  [.introduce { MemberState.localUser with localClient := none },
    .introduce MemberState.localUser,
    .createChannel 0 "#c".toList,
    .data 0 ⟨"#c".toList, 0, { Mode.zero with mode := {.inviteonly} }, [], [], []⟩,
    .addUser 0 0 {.chanop}, .invite findsOne 0 0 ["bob".toList, "#c".toList]]

/-- With `max_chans_per_user = 0` the invitation stops the program. -/
theorem add_invite_without_room :
    ¬ ∀ cf key maxChansPerUser ops pre op, pre ++ [op] <+: ops → InviteState.StepRight
      (Run.exec InviteState.stepped (some (InviteState.start cf key maxChansPerUser)) pre) op
      (Run.exec InviteState.stepped (some (InviteState.start cf key maxChansPerUser))
        (pre ++ [op])) := by
  intro h
  obtain ⟨-, t, -, ht, -⟩ := h default 0 0 inviteToChannel inviteToChannel.dropLast _
    (List.prefix_refl inviteToChannel)
  have hnone : (Run.exec InviteState.stepped (some (InviteState.start default 0 0))
      inviteToChannel).isNone = true := by decide +kernel
  rw [Option.isNone_iff_eq_none] at hnone
  exact Option.some_ne_none t (ht.symm.trans hnone)

end Ircd
