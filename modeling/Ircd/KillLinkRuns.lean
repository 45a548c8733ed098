import Ircd.KillLinkInvariant

/-!
What holds between the two servers of `KillLink.lean` while lines are on their way.

The names that `a` will know once it has read its lines are among the names of `b`; a user
of `b` that is missing there has a KILL on its way (`Inv.chased`). The users of `a` that `b`
will know are exactly the ones of `a`. Both need that a KILL that arrives finds the client it
was sent for (`killFinds`), which a link with identifiers sees to.
-/

namespace Ircd

open Function
open Replica Party

/-- What a line does to the entry of the client that it is about. -/
def lineEffect : Effect Sent Cid CStr where
  key := Sent.about
  change m n :=
    match m.line with
    | .nick _ nick _ => some nick
    | .quit _ => none
    | _ => some n

/-- What a line to `a` meets there. -/
def OkA (cf : KillConfig) (ts6 : Bool) (r : Roster) (V : Cid → Option CStr) (m : Sent) : Prop :=
  match m.line with
  | .nick t nick _ =>
    r.ofA m.about = false ∧ Addresses ts6 r V t m.about ∧ Fresh V nick m.about ∧
      cleanNickName nick true = true ∧ strlcpy nick cf.nicklen = nick
  | .quit t => Addresses ts6 r V t m.about
  | .kill o _ => o = none
  | .squit _ => True

/-- What a line to `b` meets among the users of `a` there: the operator of a KILL and a user
that leaves are still known. -/
def OkB (ts6 : Bool) (r : Roster) (V : Cid → Option CStr) (m : Sent) : Prop :=
  match m.line with
  | .nick .. => False
  | .quit t => Addresses ts6 r V t m.about ∧ (r.ofA m.about = true → V m.about ≠ none)
  | .kill (some t) _ => ∃ o, r.ofA o = true ∧ V o ≠ none ∧ Addresses ts6 r V t o
  | .kill none _ => True
  | .squit _ => True

/-- The server that a QUIT or a KILL comes from does not know the client any more, nor does
the server that it goes to, if the client quits there or if one behind the link is killed. -/
def Settled (ts6 : Bool) (r : Roster) (own : Cid → Bool) (sender receiver : Cid → Option CStr)
    (m : Sent) : Prop :=
  match m.line with
  | .quit _ => sender m.about = none ∧ (own m.about = true → receiver m.about = none)
  | .kill _ user =>
    sender m.about = none ∧ (own m.about = false → receiver m.about = none) ∧
      (ts6 = true → r.known m.about ∧ user = r.ids m.about)
  | _ => True

namespace KillLink

/-- The two servers between two steps. -/
structure Inv (cf : KillConfig) (ts6 : Bool) (r : Roster) (s : KillLink) : Prop where
  soundA : s.a.Sound ts6 r r.ofA
  soundB : s.b.Sound ts6 r fun c => !r.ofA c
  validA : lineEffect.Valid (OkA cf ts6 r) s.a.view s.toA
  validB : lineEffect.Valid (OkB ts6 r) (usersOfA r s.b.view) s.toB
  behind : Sub (lineEffect.replay s.a.view s.toA) s.b.view
  chased : ∀ c, r.ofA c = false → s.b.view c ≠ none → lineEffect.replay s.a.view s.toA c = none →
    ∃ o user, ⟨.kill o user, c⟩ ∈ s.toB
  users : lineEffect.replay (usersOfA r s.b.view) s.toB = usersOfA r s.a.view
  settledA : ∀ m ∈ s.toA, Settled ts6 r r.ofA s.b.view s.a.view m
  settledB : ∀ m ∈ s.toB, Settled ts6 r (fun c => !r.ofA c) s.a.view s.b.view m

variable {cf : KillConfig} {ts6 : Bool} {r : Roster} {s : KillLink} {m : Sent} {rest : List Sent}
  {c : Cid} {own : Cid → Bool} {V W V' W' : Cid → Option CStr}

/-! ### What stays as clients leave -/

theorem okA_mono (V W : Cid → Option CStr) (m : Sent) (hsub : Sub V W) (h : OkA cf ts6 r W m) :
    OkA cf ts6 r V m := by
  unfold OkA at h ⊢
  split at h
  · obtain ⟨hown, haddr, hfresh, hclean⟩ := h
    exact ⟨hown, haddr.mono hsub, fun d n hd => hfresh d n (hsub d n hd), hclean⟩
  · exact h.mono hsub
  · exact h
  · trivial

theorem settled_mono (hV : ∀ c, V c = none → V' c = none) (hW : ∀ c, W c = none → W' c = none)
    (h : Settled ts6 r own V W m) : Settled ts6 r own V' W' m := by
  unfold Settled at h ⊢
  split at h
  · exact ⟨hV _ h.1, fun ho => hW _ (h.2 ho)⟩
  · exact ⟨hV _ h.1, fun ho => hW _ (h.2.1 ho), h.2.2⟩
  · trivial

theorem erase_eq_none (c : Cid) : ∀ d, V d = none → update V c none d = none :=
  fun _ h => (sub_erase V c).eq_none h

theorem usersOfA_update (o : Option CStr) :
    usersOfA r (update V c o) =
      if r.ofA c then update (usersOfA r V) c o else usersOfA r V := by
  funext d
  by_cases hdc : d = c
  · subst hdc
    cases h : r.ofA d <;> simp [usersOfA, h]
  · cases h : r.ofA c <;> simp [usersOfA, update_of_ne hdc]

/-! ### The steps of `a` -/

theorem Inv.takeA (h : Inv cf ts6 r s) {a' : Party} (hq : s.toA = m :: rest)
    (hsound : a'.Sound ts6 r r.ofA) (hview : a'.view = lineEffect.apply s.a.view m)
    (husers : usersOfA r a'.view = usersOfA r s.a.view) :
    Inv cf ts6 r { s with a := a', toA := rest } := by
  have hvalid := h.validA
  have hbehind := h.behind
  have hchased := h.chased
  have hsettled := h.settledA
  rw [hq] at hvalid hbehind hchased hsettled
  rw [Effect.replay_cons, ← hview] at hbehind
  simp only [Effect.replay_cons, ← hview] at hchased
  have hfade : ∀ c, s.a.view c = none → a'.view c = none := by
    intro c hc
    rw [hview]
    exact Effect.apply_eq_none hc
  exact
    { soundA := hsound
      soundB := h.soundB
      validA := hview ▸ hvalid.2
      validB := h.validB
      behind := hbehind
      chased := hchased
      users := h.users.trans husers.symm
      settledA := fun m' hm' =>
        settled_mono (fun _ => id) hfade (hsettled m' (List.mem_cons_of_mem _ hm'))
      settledB := fun m' hm' => settled_mono hfade (fun _ => id) (h.settledB m' hm') }

theorem Inv.sendB (h : Inv cf ts6 r s) (hok : OkB ts6 r (usersOfA r s.a.view) m)
    (hkeep : lineEffect.apply (usersOfA r s.a.view) m = usersOfA r s.a.view)
    (hset : Settled ts6 r (fun c => !r.ofA c) s.a.view s.b.view m) :
    Inv cf ts6 r { s with toB := s.toB ++ [m] } where
  soundA := h.soundA
  soundB := h.soundB
  validA := h.validA
  validB := Effect.valid_concat.mpr ⟨h.validB, h.users.symm ▸ hok⟩
  behind := h.behind
  chased c hown hb ha :=
    let ⟨o, user, hmem⟩ := h.chased c hown hb ha
    ⟨o, user, List.mem_append_left _ hmem⟩
  users := by rw [Effect.replay_concat, h.users, hkeep]
  settledA := h.settledA
  settledB m' hm' := by
    rcases List.mem_append.mp hm' with hold | hnew
    · exact h.settledB m' hold
    · exact List.mem_singleton.mp hnew ▸ hset

theorem Inv.leaveA (h : Inv cf ts6 r s) {a' : Party} (hsound : a'.Sound ts6 r r.ofA)
    (hview : a'.view = update s.a.view c none) (hok : OkB ts6 r (usersOfA r s.a.view) m)
    (heff : lineEffect.apply (usersOfA r s.a.view) m = usersOfA r a'.view)
    (hset : Settled ts6 r (fun c => !r.ofA c) a'.view s.b.view m)
    (hchased : r.ofA c = false → s.b.view c ≠ none → ∃ o user, m = ⟨.kill o user, c⟩) :
    Inv cf ts6 r { s with a := a', toB := s.toB ++ [m] } := by
  have hsub : Sub a'.view s.a.view := hview ▸ sub_erase s.a.view c
  have hreplay : lineEffect.replay a'.view s.toA =
      update (lineEffect.replay s.a.view s.toA) c none := by
    rw [hview, Effect.replay_erase]
  refine
    { soundA := hsound
      soundB := h.soundB
      validA := h.validA.mono okA_mono hsub
      validB := Effect.valid_concat.mpr ⟨h.validB, h.users.symm ▸ hok⟩
      behind := (Effect.replay_mono hsub).trans h.behind
      chased := fun d hown hb ha => ?_
      users := by rw [Effect.replay_concat, h.users, heff]
      settledA := fun m' hm' =>
        settled_mono (fun _ => id) (fun _ hd => hsub.eq_none hd) (h.settledA m' hm')
      settledB := fun m' hm' => ?_ }
  · by_cases hdc : d = c
    · subst hdc
      obtain ⟨o, user, rfl⟩ := hchased hown hb
      exact ⟨o, user, List.mem_append_right _ (List.mem_singleton_self _)⟩
    · rw [hreplay, update_of_ne hdc] at ha
      obtain ⟨o, user, hmem⟩ := h.chased d hown hb ha
      exact ⟨o, user, List.mem_append_left _ hmem⟩
  · rcases List.mem_append.mp hm' with hold | hnew
    · exact settled_mono (fun _ hd => hsub.eq_none hd) (fun _ => id) (h.settledB m' hold)
    · exact List.mem_singleton.mp hnew ▸ hset

/-! ### The steps of `b` -/

theorem Inv.takeB (h : Inv cf ts6 r s) {b' : Party} (hq : s.toB = m :: rest)
    (hsound : b'.Sound ts6 r fun c => !r.ofA c)
    (hview : b'.view = s.b.view ∨
      b'.view = update s.b.view m.about none ∧ s.a.view m.about = none)
    (heff : lineEffect.apply (usersOfA r s.b.view) m = usersOfA r b'.view)
    (hgone : ∀ o user, m.line = .kill o user → b'.view m.about = none) :
    Inv cf ts6 r { s with b := b', toB := rest } := by
  have hvalid := h.validB
  have husers := h.users
  have hchased := h.chased
  have hsettled := h.settledB
  rw [hq] at hvalid husers hchased hsettled
  rw [Effect.replay_cons, heff] at husers
  have hfade : ∀ c, s.b.view c = none → b'.view c = none := by
    intro c hc
    rcases hview with hsame | ⟨herase, -⟩
    · rw [hsame, hc]
    · rw [herase, erase_eq_none _ c hc]
  refine
    { soundA := h.soundA
      soundB := hsound
      validA := h.validA
      validB := heff ▸ hvalid.2
      behind := ?_
      chased := fun c hown hb ha => ?_
      users := husers
      settledA := fun m' hm' => settled_mono hfade (fun _ => id) (h.settledA m' hm')
      settledB := fun m' hm' =>
        settled_mono (fun _ => id) hfade (hsettled m' (List.mem_cons_of_mem _ hm')) }
  · rcases hview with hsame | ⟨herase, hnone⟩
    · exact hsame ▸ h.behind
    · exact herase ▸ h.behind.erase (Effect.replay_eq_none hnone)
  · obtain ⟨o, user, hmem⟩ := hchased c hown (fun hc => hb (hfade c hc)) ha
    rcases List.mem_cons.mp hmem with rfl | hrest
    · exact absurd (hgone o user rfl) hb
    · exact ⟨o, user, hrest⟩

theorem Inv.sendA (h : Inv cf ts6 r s)
    (hok : OkA cf ts6 r (lineEffect.replay s.a.view s.toA) m)
    (hkeep : lineEffect.apply (lineEffect.replay s.a.view s.toA) m =
      lineEffect.replay s.a.view s.toA)
    (hset : Settled ts6 r r.ofA s.b.view s.a.view m) :
    Inv cf ts6 r { s with toA := s.toA ++ [m] } := by
  have hreplay : lineEffect.replay s.a.view (s.toA ++ [m]) =
      lineEffect.replay s.a.view s.toA := by rw [Effect.replay_concat, hkeep]
  refine
    { soundA := h.soundA
      soundB := h.soundB
      validA := Effect.valid_concat.mpr ⟨h.validA, hok⟩
      validB := h.validB
      behind := hreplay.symm ▸ h.behind
      chased := hreplay.symm ▸ h.chased
      users := h.users
      settledA := fun m' hm' => ?_
      settledB := h.settledB }
  rcases List.mem_append.mp hm' with hold | hnew
  · exact h.settledA m' hold
  · exact List.mem_singleton.mp hnew ▸ hset

theorem Inv.changeB (h : Inv cf ts6 r s) {b' : Party} {o : Option CStr}
    (hsound : b'.Sound ts6 r fun c => !r.ofA c) (hown : r.ofA m.about = false)
    (hb : s.b.view m.about ≠ none) (hview : b'.view = update s.b.view m.about o)
    (heff : ∀ n, lineEffect.change m n = o)
    (hok : OkA cf ts6 r (lineEffect.replay s.a.view s.toA) m)
    (hset : Settled ts6 r r.ofA b'.view s.a.view m) :
    Inv cf ts6 r { s with b := b', toA := s.toA ++ [m] } := by
  have husers : usersOfA r b'.view = usersOfA r s.b.view := by
    rw [hview, usersOfA_update, hown]
    rfl
  have hfade : ∀ c, s.b.view c = none → b'.view c = none := by
    intro c hc
    have hcm : c ≠ m.about := by
      rintro rfl
      exact hb hc
    rw [hview, update_of_ne hcm, hc]
  refine
    { soundA := h.soundA
      soundB := hsound
      validA := Effect.valid_concat.mpr ⟨h.validA, hok⟩
      validB := husers.symm ▸ h.validB
      behind := ?_
      chased := fun c hc hbc hac => ?_
      users := husers.symm ▸ h.users
      settledA := fun m' hm' => ?_
      settledB := fun m' hm' => settled_mono (fun _ => id) hfade (h.settledB m' hm') }
  · rw [Effect.replay_concat, hview]
    exact Effect.apply_sub_update h.behind heff
  · rw [Effect.replay_concat] at hac
    refine h.chased c hc (fun hnone => hbc (hfade c hnone)) ?_
    by_cases hcm : c = m.about
    · subst hcm
      cases hknown : lineEffect.replay s.a.view s.toA m.about with
      | none => rfl
      | some n =>
        -- where `a` would know the client, the line leaves it what `b` has
        have hset : lineEffect.apply (lineEffect.replay s.a.view s.toA) m m.about = o := by
          rw [Effect.apply_of_some hknown]
          exact (update_self ..).trans (heff n)
        rw [hview, update_self] at hbc
        exact absurd (hset.symm.trans hac) hbc
    · rwa [Effect.apply_other hcm] at hac
  · rcases List.mem_append.mp hm' with hold | hnew
    · exact settled_mono hfade (fun _ => id) (h.settledA m' hold)
    · exact List.mem_singleton.mp hnew ▸ hset

theorem Inv.same (h : Inv cf ts6 r s) {a' b' : Party} (ha : a'.Sound ts6 r r.ofA)
    (hb : b'.Sound ts6 r fun c => !r.ofA c) (hva : a'.view = s.a.view) (hvb : b'.view = s.b.view) :
    Inv cf ts6 r { s with a := a', b := b' } where
  soundA := ha
  soundB := hb
  validA := hva.symm ▸ h.validA
  validB := hvb.symm ▸ h.validB
  behind := hva.symm ▸ hvb.symm ▸ h.behind
  chased := hva.symm ▸ hvb.symm ▸ h.chased
  users := hva.symm ▸ hvb.symm ▸ h.users
  settledA := hva.symm ▸ hvb.symm ▸ h.settledA
  settledB := hva.symm ▸ hvb.symm ▸ h.settledB

/-! ### The effects of the lines -/

@[simp] theorem apply_quit (V : Cid → Option CStr) (t : CStr) (c : Cid) :
    lineEffect.apply V ⟨.quit t, c⟩ = update V c none := by
  cases h : V c <;> simp [Effect.apply, lineEffect, h]

@[simp] theorem apply_kill (V : Cid → Option CStr) (o : Option CStr) (user : CStr) (c : Cid) :
    lineEffect.apply V ⟨.kill o user, c⟩ = V := Effect.apply_of_keep rfl

@[simp] theorem apply_squit (V : Cid → Option CStr) (t : CStr) (c : Cid) :
    lineEffect.apply V ⟨.squit t, c⟩ = V := Effect.apply_of_keep rfl

theorem apply_nick {nick : CStr} (t : CStr) (ts : Int) (h : V c ≠ none) :
    lineEffect.apply V ⟨.nick t nick ts, c⟩ = update V c (some nick) := by
  obtain ⟨n, hn⟩ := Option.ne_none_iff_exists'.mp h
  exact Effect.apply_of_some hn

theorem usersOfA_sub : Sub (usersOfA r V) V := by
  intro d n hd
  unfold usersOfA at hd
  split at hd
  · exact hd
  · cases hd

theorem removeUnknown_cases (t : CStr) (c : Cid) :
    removeUnknown t c = ⟨.squit t, c⟩ ∨ removeUnknown t c = ⟨.kill none t, c⟩ := by
  unfold removeUnknown
  split
  · exact .inl rfl
  · exact .inr rfl

theorem id_of_addresses {t : CStr} (h : Addresses ts6 r V t c) (hts6 : ts6 = true) :
    r.known c ∧ t = r.ids c := by
  subst hts6
  exact ⟨h.1, h.2⟩

theorem finds_of_settled {p : Party} (hs : p.Sound ts6 r own) (hr : r.Proper ts6)
    {own' : Cid → Bool} (hset : Settled ts6 r own' V W m)
    (hguard : (ts6 || p.finds cf m) = true) : p.finds cf m = true := by
  cases hts6 : ts6 with
  | false => simpa [hts6] using hguard
  | true =>
    subst hts6
    cases hm : m.line with
    | kill o user =>
      simp only [Settled, hm] at hset
      obtain ⟨hknown, rfl⟩ := hset.2.2 trivial
      exact finds_of_id cf hs hr hm hknown
    | _ => simp [finds, hm]

/-! ### What `a` does -/

theorem Inv.exitA (h : Inv cf ts6 r s) (hr : r.Proper ts6) (hc : c ∈ s.a.hash)
    (hown : r.ofA c = true) : Inv cf ts6 r (s.onA (s.a.exitClient cf ts6 c)) := by
  obtain ⟨hsound, hview, hlines⟩ := exitClient_spec cf h.soundA hc
  have haddr := addresses_idOrName h.soundA hr hc
  have hknown : usersOfA r s.a.view c ≠ none := by
    simp [usersOfA, hown, view_of_mem hc]
  rw [onA, hlines]
  refine h.leaveA hsound hview ⟨haddr.mono usersOfA_sub, fun _ => hknown⟩ ?_ ⟨?_, ?_⟩ ?_
  · rw [apply_quit, hview, usersOfA_update, if_pos hown]
  · rw [hview, update_self]
  · simp [hown]
  · simp [hown]

theorem Inv.killA (h : Inv cf ts6 r s) (hr : r.Proper ts6) {source : Cid}
    (hsource : source ∈ s.a.hash)
    (hoper : r.ofA source = true) (hc : c ∈ s.a.hash) (hown : r.ofA c = false) :
    Inv cf ts6 r (s.onA ((s.a.killClient cf ts6 c).1, [s.a.relayKill ts6 source c])) := by
  obtain ⟨hsound, hview, -⟩ := killClient_spec cf (c := c) h.soundA
  have haddr := addresses_idOrName h.soundA hr hsource
  have hknown : usersOfA r s.a.view source ≠ none := by
    simp [usersOfA, hoper, view_of_mem hsource]
  refine h.leaveA hsound hview ⟨source, hoper, hknown, haddr.mono usersOfA_sub⟩ ?_
    ⟨?_, ?_, ?_⟩ ?_
  · rw [relayKill, apply_kill, hview, usersOfA_update, hown]
    rfl
  · simp [relayKill, hview]
  · simp [relayKill, hown]
  · exact id_of_addresses (addresses_idOrName h.soundA hr hc)
  · exact fun _ _ => ⟨_, _, rfl⟩

theorem Inv.moKill (h : Inv cf ts6 r s) (hr : r.Proper ts6) {source : Cid}
    (hsource : source ∈ s.a.hash) (hoper : r.ofA source = true) (user : CStr) :
    Inv cf ts6 r (s.onA (s.a.moKill cf ts6 source user)) := by
  rcases moKill_spec cf h.soundA source user with hnone | ⟨c, hc, ⟨hown, hexit⟩ | ⟨hown, hkill⟩⟩
  · simpa [hnone, onA] using h
  · exact hexit ▸ h.exitA hr hc hown
  · exact hkill ▸ h.killA hr hsource hoper hc hown

theorem Inv.unknownA (h : Inv cf ts6 r s) {t : CStr} (haddr : Addresses ts6 r V t c)
    (ha : s.a.view c = none) (hb : r.ofA c = true → s.b.view c = none) :
    Inv cf ts6 r { s with toB := s.toB ++ [removeUnknown t c] } := by
  rcases removeUnknown_cases t c with heq | heq
  · rw [heq]
    exact h.sendB trivial (apply_squit ..) trivial
  · rw [heq]
    refine h.sendB trivial (apply_kill ..) ⟨ha, ?_, id_of_addresses haddr⟩
    simpa using hb

/-! ### What `b` does -/

theorem Inv.unknownB (h : Inv cf ts6 r s) {t : CStr} (haddr : Addresses ts6 r V t c)
    (hb : s.b.view c = none) (ha : r.ofA c = false → s.a.view c = none) :
    Inv cf ts6 r { s with toA := s.toA ++ [removeUnknown t c] } := by
  rcases removeUnknown_cases t c with heq | heq
  · rw [heq]
    exact h.sendA trivial (apply_squit ..) trivial
  · rw [heq]
    exact h.sendA rfl (apply_kill ..) ⟨hb, ha, id_of_addresses haddr⟩

theorem Inv.exitB (h : Inv cf ts6 r s) (hr : r.Proper ts6) (hc : c ∈ s.b.hash)
    (hown : r.ofA c = false) : Inv cf ts6 r (s.onB (s.b.exitClient cf ts6 c)) := by
  obtain ⟨hsound, hview, hlines⟩ := exitClient_spec cf h.soundB hc
  have haddr := addresses_idOrName h.soundB hr hc
  have hknown : s.b.view c ≠ none := by simp [view_of_mem hc]
  rw [onB, hlines]
  refine h.changeB hsound hown hknown hview (fun _ => rfl) (haddr.mono h.behind) ⟨?_, ?_⟩
  · rw [hview, update_self]
  · simp [hown]

theorem Inv.mNick (h : Inv cf ts6 r s) (hr : r.Proper ts6) (hc : c ∈ s.b.hash)
    (hown : r.ofA c = false) (newnick : CStr) :
    Inv cf ts6 r (s.onB (s.b.mNick cf ts6 c newnick)) := by
  obtain ⟨hsound, ⟨hview, hlines⟩ | ⟨nick, ts, hclean, hlen, hfresh, hview, hlines⟩⟩ :=
    mNick_spec cf h.soundB hc newnick
  · rw [onB, hlines, List.append_nil]
    exact h.same h.soundA hsound rfl hview
  · have haddr := (addresses_idOrName h.soundB hr hc).mono h.behind
    have hknown : s.b.view c ≠ none := by simp [view_of_mem hc]
    rw [onB, hlines]
    exact h.changeB hsound hown hknown hview (fun _ => rfl)
      ⟨hown, haddr, fun d n hd => hfresh d n (h.behind d n hd), hclean, hlen⟩ trivial

/-! ### Lines arrive -/

theorem Inv.dropA (h : Inv cf ts6 r s) (hq : s.toA = m :: rest)
    (hkeep : lineEffect.apply s.a.view m = s.a.view) : Inv cf ts6 r { s with toA := rest } :=
  h.takeA hq h.soundA hkeep.symm rfl

theorem Inv.dropB (h : Inv cf ts6 r s) (hq : s.toB = m :: rest)
    (hkeep : lineEffect.apply (usersOfA r s.b.view) m = usersOfA r s.b.view)
    (hgone : ∀ o user, m.line = .kill o user → s.b.view m.about = none) :
    Inv cf ts6 r { s with toB := rest } :=
  h.takeB hq h.soundB (.inl rfl) hkeep hgone

theorem Inv.deliverA (h : Inv cf ts6 r s) (hr : r.Proper ts6) (hq : s.toA = m :: rest)
    (hguard : (ts6 || s.a.finds cf m) = true) :
    Inv cf ts6 r ({ s with toA := rest }.onA (s.a.receive cf ts6 m)) := by
  have hok : OkA cf ts6 r s.a.view m := by
    have hvalid := h.validA
    rw [hq] at hvalid
    exact hvalid.1
  have hset := h.settledA m (hq ▸ List.mem_cons_self)
  have hfinds := finds_of_settled h.soundA hr hset hguard
  obtain ⟨line, c⟩ := m
  cases line with
  | nick t nick ts =>
    obtain ⟨hown, haddr, hfresh, hclean, hlen⟩ := hok
    by_cases hc : c ∈ s.a.hash
    · obtain ⟨hsound, hview, hlines⟩ := msNick_spec cf h.soundA hc hclean hlen hfresh ts
      have hreceive : s.a.receive cf ts6 ⟨.nick t nick ts, c⟩ = s.a.msNick cf ts6 c nick ts := by
        rw [receive_nick, fromUser_of_addresses cf h.soundA hr haddr, if_pos hc, hown]
        rfl
      have hknown : s.a.view c ≠ none := by simp [view_of_mem hc]
      rw [hreceive, onA, hlines, List.append_nil]
      refine h.takeA hq hsound (hview.trans (apply_nick t ts hknown).symm) ?_
      rw [hview, usersOfA_update, hown]
      rfl
    · have hnone := view_eq_none.mpr hc
      have hreceive : s.a.receive cf ts6 ⟨.nick t nick ts, c⟩ = (s.a, [removeUnknown t c]) := by
        rw [receive_nick, fromUser_of_addresses cf h.soundA hr haddr, if_neg hc]
      rw [hreceive]
      exact (h.dropA hq (Effect.apply_of_none hnone)).unknownA haddr hnone (by simp [hown])
  | quit t =>
    obtain ⟨hb, ha⟩ := hset
    by_cases hc : c ∈ s.a.hash
    · have hown : r.ofA c = false := by
        by_contra hown
        exact view_eq_none.mp (ha (by simpa using hown)) hc
      obtain ⟨hsound, hview, hlines⟩ := exitClient_spec cf h.soundA hc
      have hreceive : s.a.receive cf ts6 ⟨.quit t, c⟩ = s.a.exitClient cf ts6 c := by
        rw [receive_quit, fromUser_of_addresses cf h.soundA hr hok, if_pos hc, hown]
        rfl
      have husers : usersOfA r (s.a.exitClient cf ts6 c).1.view = usersOfA r s.a.view := by
        rw [hview, usersOfA_update, hown]
        rfl
      have hleft : (s.a.exitClient cf ts6 c).1.view c = none := by
        rw [hview, update_self]
      have htaken := h.takeA hq hsound (hview.trans (apply_quit ..).symm) husers
      -- the QUIT goes back to where it came from
      rw [hreceive, onA, hlines]
      refine htaken.sendB ⟨?_, ?_⟩ (Effect.apply_of_none ?_) ⟨hleft, fun _ => hb⟩
      · refine (addresses_idOrName h.soundA hr hc).mono ?_
        exact husers ▸ usersOfA_sub
      · simp [hown]
      · simp [usersOfA, lineEffect, hown]
    · have hnone := view_eq_none.mpr hc
      have hreceive : s.a.receive cf ts6 ⟨.quit t, c⟩ = (s.a, [removeUnknown t c]) := by
        rw [receive_quit, fromUser_of_addresses cf h.soundA hr hok, if_neg hc]
      rw [hreceive]
      exact (h.dropA hq (Effect.apply_of_none hnone)).unknownA hok hnone fun _ => hb
  | kill o user =>
    obtain rfl : o = none := hok
    obtain ⟨hb, ha, -⟩ := hset
    have hc : c ∉ s.a.hash := by
      rw [← view_eq_none]
      cases hown : r.ofA c with
      | false => exact ha hown
      | true =>
        -- `b` will not know more users of `a` than it knows now
        have husers := congrFun h.users c
        rw [Effect.replay_eq_none (by simp [usersOfA, hb])] at husers
        simpa [usersOfA, hown] using husers.symm
    have hreceive : s.a.receive cf ts6 ⟨.kill none user, c⟩ = (s.a, []) := by
      rw [receive_kill, msKill_of_finds cf rfl hfinds, if_neg hc]
    rw [hreceive, onA, List.append_nil]
    exact h.dropA hq (apply_kill ..)
  | squit t =>
    rw [receive_squit, onA, List.append_nil]
    exact h.dropA hq (apply_squit ..)

theorem Inv.killB (h : Inv cf ts6 r s) {o : Option CStr} {user : CStr}
    (hq : s.toB = ⟨.kill o user, c⟩ :: rest) (hfinds : s.b.finds cf ⟨.kill o user, c⟩ = true) :
    Inv cf ts6 r ({ s with toB := rest }.onB (s.b.msKill cf ts6 user)) := by
  obtain ⟨ha, hb, -⟩ := h.settledB _ (hq ▸ List.mem_cons_self)
  rw [msKill_of_finds cf rfl hfinds]
  by_cases hc : c ∈ s.b.hash
  · obtain ⟨hsound, hview, hlines⟩ := killClient_spec cf (c := c) h.soundB
    have hown : r.ofA c = false := by
      by_contra hown
      exact view_eq_none.mp (hb (by simpa using hown)) hc
    rw [if_pos hc, onB, hlines, List.append_nil]
    refine h.takeB hq hsound (.inr ⟨hview, ha⟩) ?_ fun _ _ _ => ?_
    · rw [apply_kill, hview, usersOfA_update, hown]
      rfl
    · rw [hview, update_self]
  · rw [if_neg hc, onB, List.append_nil]
    exact h.dropB hq (apply_kill ..) fun _ _ _ => view_eq_none.mpr hc

theorem Inv.deliverB (h : Inv cf ts6 r s) (hr : r.Proper ts6) (hq : s.toB = m :: rest)
    (hguard : (ts6 || s.b.finds cf m) = true) :
    Inv cf ts6 r ({ s with toB := rest }.onB (s.b.receive cf ts6 m)) := by
  have hok : OkB ts6 r (usersOfA r s.b.view) m := by
    have hvalid := h.validB
    rw [hq] at hvalid
    exact hvalid.1
  have hset := h.settledB m (hq ▸ List.mem_cons_self)
  have hfinds := finds_of_settled h.soundB hr hset hguard
  obtain ⟨line, c⟩ := m
  cases line with
  | nick t nick ts => exact hok.elim
  | quit t =>
    obtain ⟨haddr, hthere⟩ := hok
    obtain ⟨ha, hb⟩ := hset
    cases hown : r.ofA c with
    | true =>
      have hc : c ∈ s.b.hash := by
        by_contra hc
        exact hthere hown (by simp [usersOfA, view_eq_none.mpr hc])
      obtain ⟨hsound, hview, hlines⟩ := exitClient_spec cf h.soundB hc
      have hreceive : s.b.receive cf ts6 ⟨.quit t, c⟩ = s.b.exitClient cf ts6 c := by
        rw [receive_quit, fromUser_of_addresses cf h.soundB hr
          (addresses_of_usersOfA h.soundB haddr hown hc), if_pos hc, hown]
        rfl
      have hleft : (s.b.exitClient cf ts6 c).1.view c = none := by
        rw [hview, update_self]
      have htaken := h.takeB hq hsound (.inr ⟨hview, ha⟩)
        (by rw [apply_quit, hview, usersOfA_update, if_pos hown])
        (by intro o user hkill; cases hkill)
      -- the QUIT goes back to where it came from
      rw [hreceive, onB, hlines]
      refine htaken.sendA ?_ (Effect.apply_of_none (Effect.replay_eq_none ha))
        ⟨hleft, fun _ => ha⟩
      exact (addresses_idOrName h.soundB hr hc).mono h.behind
    | false =>
      have hnone := hb (by simp [hown])
      have hdropped := h.dropB hq (Effect.apply_of_none (by simp [usersOfA, hown, lineEffect]))
        (by intro o user hkill; cases hkill)
      rw [receive_quit]
      rcases fromUser_of_gone cf h.soundB hr haddr (view_eq_none.mp hnone) c
        (fun source => s.b.exitClient cf ts6 source) with heq | heq
      · rw [heq, onB, List.append_nil]
        exact hdropped
      · rw [heq]
        exact hdropped.unknownB haddr hnone fun _ => ha
  | kill o user =>
    cases o with
    | none =>
      rw [receive_kill]
      exact h.killB hq hfinds
    | some t =>
      obtain ⟨source, hoper, hthere, haddr⟩ := hok
      have hsource : source ∈ s.b.hash := by
        by_contra hc
        exact hthere (by simp [usersOfA, view_eq_none.mpr hc])
      have hreceive : s.b.receive cf ts6 ⟨.kill (some t) user, c⟩ =
          s.b.msKill cf ts6 user := by
        rw [receive_kill_from, fromUser_of_addresses cf h.soundB hr
          (addresses_of_usersOfA h.soundB haddr hoper hsource), if_pos hsource, hoper]
        rfl
      rw [hreceive]
      exact h.killB hq hfinds
  | squit t =>
    rw [receive_squit, onB, List.append_nil]
    exact h.dropB hq (apply_squit ..) (by intro o user hkill; cases hkill)

/-! ### Runs -/

/-- A KILL that is taken from the link finds the client it was sent for, if the server still
knows that client, and nobody otherwise. With identifiers nothing is asked. -/
def killFinds (cf : KillConfig) (ts6 : Bool) (s : KillLink) : KillOp → Bool
  | .deliverA => ts6 || s.toA.head?.all (s.a.finds cf)
  | .deliverB => ts6 || s.toB.head?.all (s.b.finds cf)
  | _ => true

theorem isUserOf_spec {p : Party} (hs : p.Sound ts6 r own) (h : isUserOf p c = true) :
    c ∈ p.hash ∧ own c = true := by
  simp only [isUserOf, Bool.and_eq_true, decide_eq_true_eq] at h
  exact ⟨h.1, hs.home c h.1 ▸ h.2⟩

theorem Inv.step (h : Inv cf ts6 r s) (hr : r.Proper ts6) (op : KillOp)
    (hok : killFinds cf ts6 s op = true) : Inv cf ts6 r (s.step cf ts6 op) := by
  cases op with
  | kill source user =>
    rw [KillLink.step]
    split
    · rename_i hsource
      obtain ⟨hmem, hoper⟩ := isUserOf_spec h.soundA hsource
      exact h.moKill hr hmem hoper user
    · exact h
  | nick source nick =>
    rw [KillLink.step]
    split
    · rename_i hsource
      obtain ⟨hmem, hown⟩ := isUserOf_spec h.soundB hsource
      exact h.mNick hr hmem (by simpa using hown) nick
    · exact h
  | quitA source =>
    rw [KillLink.step]
    split
    · rename_i hsource
      obtain ⟨hmem, hown⟩ := isUserOf_spec h.soundA hsource
      exact h.exitA hr hmem hown
    · exact h
  | quitB source =>
    rw [KillLink.step]
    split
    · rename_i hsource
      obtain ⟨hmem, hown⟩ := isUserOf_spec h.soundB hsource
      exact h.exitB hr hmem (by simpa using hown)
    · exact h
  | deliverA =>
    rw [KillLink.step]
    split
    · exact h
    · rename_i m rest hq
      exact h.deliverA hr hq (by simpa [killFinds, hq] using hok)
  | deliverB =>
    rw [KillLink.step]
    split
    · exact h
    · rename_i m rest hq
      exact h.deliverB hr hq (by simpa [killFinds, hq] using hok)
  | timeA now =>
    have hsound : ({ s.a with currentTime := now } : Party).Sound ts6 r r.ofA := { h.soundA with }
    exact h.same hsound h.soundB rfl rfl
  | timeB now =>
    have hsound : ({ s.b with currentTime := now } : Party).Sound ts6 r fun c => !r.ofA c :=
      { h.soundB with }
    exact h.same h.soundA hsound rfl rfl

/-- The clients of a state where both servers know the same ones. -/
def roster (s : KillLink) : Roster :=
  ⟨fun c => c ∈ s.a.hash, fun c => (s.a.clients c).myConnect, fun c => (s.a.clients c).id⟩

/-- Both servers know the same clients under the same nicks, each client is connected to one
of them, and nothing is on its way. -/
structure Start (ts6 : Bool) (s : KillLink) : Prop where
  soundA : s.a.Sound ts6 s.roster s.roster.ofA
  soundB : s.b.Sound ts6 s.roster fun c => !s.roster.ofA c
  proper : s.roster.Proper ts6
  views : s.a.view = s.b.view
  toA : s.toA = []
  toB : s.toB = []

theorem Start.inv (h : s.Start ts6) : Inv cf ts6 s.roster s := by
  refine
    { soundA := h.soundA
      soundB := h.soundB
      validA := h.toA.symm ▸ trivial
      validB := h.toB.symm ▸ trivial
      behind := ?_
      chased := fun c _ hb ha => ?_
      users := ?_
      settledA := fun m hm => ?_
      settledB := fun m hm => ?_ }
  · rw [h.toA, Effect.replay_nil, h.views]
    exact Sub.refl _
  · rw [h.toA, Effect.replay_nil, h.views] at ha
    exact absurd ha hb
  · rw [h.toB, Effect.replay_nil, h.views]
  · simp [h.toA] at hm
  · simp [h.toB] at hm

theorem Inv.agree (h : Inv cf ts6 r s) (hA : s.toA = []) (hB : s.toB = []) :
    s.a.view = s.b.view := by
  have hbehind := h.behind
  have hchased := h.chased
  have husers := h.users
  rw [hA, Effect.replay_nil] at hbehind
  rw [hA, hB, Effect.replay_nil] at hchased
  rw [hB, Effect.replay_nil] at husers
  funext c
  cases hown : r.ofA c with
  | true => simpa [usersOfA, hown] using (congrFun husers c).symm
  | false =>
    cases ha : s.a.view c with
    | some n => exact (hbehind c n ha).symm
    | none =>
      by_contra hb
      obtain ⟨o, user, hmem⟩ := hchased c hown (Ne.symm hb) ha
      cases hmem

/-- Once everything that KILLs and changes of nick have sent is delivered, the two servers know
the same clients under the same nicks, in every run whose KILLs find their victims. -/
theorem kill_leaves_no_ghosts (cf : KillConfig) (ts6 : Bool) (s : KillLink) (ops : List KillOp)
    (hstart : s.Start ts6)
    (hok : Run.Guarded (step cf ts6) (fun s op => killFinds cf ts6 s op = true) s ops)
    (hA : (Run.exec (step cf ts6) s ops).toA = []) (hB : (Run.exec (step cf ts6) s ops).toB = []) :
    (Run.exec (step cf ts6) s ops).a.view = (Run.exec (step cf ts6) s ops).b.view := by
  have hstep : ∀ s' op, Inv cf ts6 s.roster s' → killFinds cf ts6 s' op = true →
      Inv cf ts6 s.roster (step cf ts6 s' op) := fun s' op h hop => h.step hstart.proper op hop
  have hinv : Inv cf ts6 s.roster (Run.exec (step cf ts6) s ops) :=
    Run.inv_exec hstep hstart.inv hok
  exact hinv.agree hA hB

/-! ### Two runs -/

def plainConfig : KillConfig where
  nicklen := 10
  channel := default
  file := default
  hashFindResv := fun _ => false
  invisibleOnConnect := false
  operUmodes := ∅
  operOnlyUmodes := ∅
  hubItems := []
  leafItems := []
  nickResv := fun _ => false
  killChaseTimeLimit := 90
  nickHistoryLength := 10

def firstNick (c : Cid) : CStr := ["oper".toList, "foo".toList].getD c "baz".toList

/-- The operator and the users `foo` and `baz`, of whom `home` are connected here. -/
def threeUsers (home : Cid → Bool) : Party where
  clients c :=
    { (default : Client) with
      status := .client, name := firstNick c
      tsinfo := 50, localClient := if home c then some ⟨0, 0⟩ else none }
  hash := [0, 1, 2]
  whowas := []
  currentTime := 100

/-- The operator is on `a`, the users are on `b`. -/
def operAndUsers : KillLink := ⟨threeUsers (· == 0), threeUsers (· != 0), [], []⟩

theorem threeUsers_sound {home : Cid → Bool} {r : Roster} (hknown : ∀ c ∈ [0, 1, 2], r.known c)
    (hhome : ∀ c ∈ [0, 1, 2], home c = own c) : (threeUsers home).Sound false r own where
  nodup := by
    change [0, 1, 2].Nodup
    decide
  known := hknown
  home c hc := by
    rw [← hhome c hc]
    cases h : home c <;> simp [threeUsers, Client.myConnect, h]
  isClient _ _ := rfl
  alive _ _ := rfl
  id := nofun
  clean := by
    change ∀ c ∈ [0, 1, 2], cleanNickName (firstNick c) true = true
    decide +kernel
  distinct := by
    change ∀ c ∈ [0, 1, 2], ∀ d ∈ [0, 1, 2], ircEq (firstNick c) (firstNick d) = true → c = d
    decide +kernel
  online := by simp [threeUsers]

theorem operAndUsers_start : operAndUsers.Start false where
  soundA := threeUsers_sound (fun _ hc => hc) (by decide)
  soundB := threeUsers_sound (fun _ hc => hc) (by decide)
  proper := ⟨nofun, nofun⟩
  views := rfl
  toA := rfl
  toB := rfl

/-- A KILL and the change of the nick that it names cross; `b` finds the client in the nick
history, and both servers end without it. -/
theorem kill_leaves_no_ghosts_crossing :
    (Run.exec (step plainConfig false) operAndUsers
      [.nick 1 "x".toList, .kill 0 "foo".toList, .deliverB, .deliverA, .deliverB]).a.view =
    (Run.exec (step plainConfig false) operAndUsers
      [.nick 1 "x".toList, .kill 0 "foo".toList, .deliverB, .deliverA, .deliverB]).b.view :=
  kill_leaves_no_ghosts plainConfig false operAndUsers _ operAndUsers_start
    ⟨by decide +kernel, by decide +kernel, by decide +kernel, by decide +kernel,
      by decide +kernel, trivial⟩
    (by decide +kernel) (by decide +kernel)

/-- The nick that the KILL names was given up by its victim and taken by another user of `b`:
`b` kills that user, and `a` the first. -/
theorem kill_of_taken_nick :
    ¬∀ (cf : KillConfig) (ts6 : Bool) (s : KillLink) (ops : List KillOp), s.Start ts6 →
      (Run.exec (step cf ts6) s ops).toA = [] → (Run.exec (step cf ts6) s ops).toB = [] →
        (Run.exec (step cf ts6) s ops).a.view = (Run.exec (step cf ts6) s ops).b.view := by
  intro hall
  have hview := hall plainConfig false operAndUsers
    [.nick 1 "x".toList, .nick 2 "foo".toList, .kill 0 "foo".toList, .deliverB, .deliverA,
      .deliverA, .deliverB] operAndUsers_start (by decide +kernel) (by decide +kernel)
  -- `b` still knows the victim, under its new nick
  exact absurd (congrFun hview 1) (by decide +kernel)

end KillLink

end Ircd
