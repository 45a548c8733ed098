import Ircd.BanLists
import Ircd.ChannelMode

/-!
What a local client can change with a MODE line on a channel.

The access of the client is looked up once, in front of the mode string, and each
letter compares it for itself; only `h` asks a mode of the channel besides, which a
half operator cannot change.

- `Quiet`: what a letter does below the access of a half operator.
- `Keeps`: what a letter leaves alone below the access of a channel operator.
- `mode_never_escalates`: both over a whole line.
-/

namespace Ircd

/-- What `m_mode` passes on of a local client, from the mode string on. -/
def mModeEnv (cf : Config) (now : Int) (dir : Directory) (source : Cid) (chptr : Channel)
    (parc : Nat) : ModeEnv where
  cf := cf
  now := now
  dir := dir
  client := source
  source := source
  alev := getChannelAccess (dir.clients source) (findChannelLink dir.clients source chptr)
  parc := parc

/-- The client is on the channel with this flag. -/
def HasFlag (cl : Clients) (who : Cid) (chptr : Channel) (flag : ChFlag) : Prop :=
  ∃ member, findChannelLink cl who chptr = some member ∧ flag ∈ member.flags

/-- The members of the channel, and who of them has the flag. -/
def Channel.flagged (chptr : Channel) (flag : ChFlag) : List (Cid × Bool) :=
  chptr.members.map fun ms => (ms.client, decide (flag ∈ ms.flags))

/-- What a half operator cannot change. -/
structure Keeps (chptr chptr' : Channel) : Prop where
  chanop : chptr'.flagged .chanop = chptr.flagged .chanop
  priv : .priv ∈ chptr'.mode.mode ↔ .priv ∈ chptr.mode.mode
  halfop : .priv ∈ chptr.mode.mode → chptr'.flagged .halfop = chptr.flagged .halfop

theorem Keeps.refl (chptr : Channel) : Keeps chptr chptr := ⟨rfl, .rfl, fun _ => rfl⟩

theorem Keeps.trans {chptr chptr' chptr'' : Channel} (h : Keeps chptr chptr')
    (h' : Keeps chptr' chptr'') : Keeps chptr chptr'' where
  chanop := h'.chanop.trans h.chanop
  priv := h'.priv.trans h.priv
  halfop := fun hpriv => (h'.halfop (h.priv.mpr hpriv)).trans (h.halfop hpriv)

theorem keeps_mode (chptr : Channel) {mode : Mode}
    (hpriv : .priv ∈ mode.mode ↔ .priv ∈ chptr.mode.mode) :
    Keeps chptr { chptr with mode := mode } :=
  ⟨rfl, hpriv, fun _ => rfl⟩

/-! ### The mask lists -/

theorem flagged_clearBanCache (chptr : Channel) {flag : ChFlag} (hsilenced : flag ≠ .banSilenced)
    (hchecked : flag ≠ .banChecked) : (clearBanCache chptr).flagged flag = chptr.flagged flag := by
  unfold Channel.flagged clearBanCache
  rw [List.map_map]
  apply List.map_congr_left
  intro ms _
  unfold Function.comp Membership.clearBan
  split
  · simp [hsilenced, hchecked]
  · rfl

theorem keeps_selectList (chptr : Channel) (type : BanType) :
    Keeps chptr (selectList chptr type) := by
  have hclear : Keeps chptr (clearBanCache chptr) :=
    ⟨flagged_clearBanCache chptr (by decide) (by decide), .rfl,
      fun _ => flagged_clearBanCache chptr (by decide) (by decide)⟩
  cases type with
  | ban => exact hclear
  | exception => exact hclear
  | invex => exact .refl chptr

theorem keeps_setList (chptr : Channel) (type : BanType) (list : List Ban) :
    Keeps chptr (chptr.setList type list) := by
  cases type <;> exact ⟨rfl, .rfl, fun _ => rfl⟩

theorem keeps_addId (cf : Config) (now : Int) (client : Client) (chptr : Channel) (banid : CStr)
    (type : BanType) : Keeps chptr (addId cf now client chptr banid type).chptr := by
  unfold addId
  split
  · exact .refl chptr
  · dsimp only
    split
    · exact keeps_selectList chptr type
    · exact (keeps_selectList chptr type).trans (keeps_setList ..)

theorem keeps_delId (cf : Config) (chptr : Channel) (banid : CStr) (type : BanType) :
    Keeps chptr (delId cf chptr banid type).chptr :=
  (keeps_selectList chptr type).trans (keeps_setList ..)

namespace ModeState

variable {env : ModeEnv} {st st' : ModeState} {arg : Option CStr} {c : Char}

/-! ### Below a half operator -/

/-- The channel is as it was, and no list but that of the bans is shown. -/
structure Quiet (st st' : ModeState) : Prop where
  chptr : st'.chptr = st.chptr
  replies : ∀ type bans, .list type bans ∈ st'.replies →
    .list type bans ∈ st.replies ∨ type = .ban

theorem Quiet.refl (st : ModeState) : Quiet st st := ⟨rfl, fun _ _ => .inl⟩

theorem Quiet.trans {st'' : ModeState} (h : Quiet st st') (h' : Quiet st' st'') :
    Quiet st st'' where
  chptr := h'.chptr.trans h.chptr
  replies := by
    intro type bans hmem
    rcases h'.replies type bans hmem with hold | hban
    · exact h.replies type bans hold
    · exact .inr hban

theorem quiet_answer (err : SmErr) {reply : List ModeReply}
    (hreply : ∀ type bans, .list type bans ∈ reply → type = .ban) :
    Quiet st (st.answer err reply) := by
  unfold answer
  split
  · exact .refl st
  · refine ⟨rfl, fun type bans hmem => ?_⟩
    rcases List.mem_append.mp hmem with hold | hnew
    · exact .inl hold
    · exact .inr (hreply type bans hnew)

theorem quiet_refuse : Quiet st (st.refuse env) := by
  apply quiet_answer
  intro type bans hmem
  rw [List.mem_singleton] at hmem
  split at hmem <;> cases hmem

theorem quiet_chmLetter (hlow : env.alev.level < ChAccess.halfop.level) :
    Quiet st (st.chmLetter env arg c) := by
  have hlisted : ∀ type enabled err caps,
      Quiet st (st.chmListed env type enabled err caps arg c) := by
    intro type enabled err caps
    unfold chmListed
    split
    · exact quiet_answer err fun _ _ hmem => absurd hmem List.not_mem_nil
    · exact quiet_refuse
  have hstatus : ∀ need flag undeop, ChAccess.halfop.level ≤ need.level →
      Quiet st (st.chmStatus env need flag undeop arg c) := by
    intro need flag undeop hneed
    rw [chmStatus, if_pos (lt_of_lt_of_le hlow hneed)]
    exact quiet_refuse
  unfold chmLetter
  split
  · exact hlisted ..
  · unfold chmBan
    split
    · apply quiet_answer
      intro type bans hmem
      rw [List.mem_singleton] at hmem
      exact (ModeReply.list.inj hmem).1
    · rw [if_pos hlow]
      exact quiet_refuse
  · exact hlisted ..
  · apply hstatus
    split <;> decide
  · unfold chmKey
    rw [if_pos hlow]
    exact quiet_refuse
  · unfold chmLimit
    rw [if_pos hlow]
    exact quiet_refuse
  · exact hstatus _ _ _ (by decide)
  · exact hstatus _ _ _ (by decide)
  · split
    · rw [chmSimple, if_pos (.inl hlow)]
      exact quiet_refuse
    · apply quiet_answer
      intro type bans hmem
      rw [List.mem_singleton] at hmem
      cases hmem

/-! ### Below a channel operator -/

variable (st) in
theorem keeps_answer (err : SmErr) (reply : List ModeReply) :
    Keeps st.chptr (st.answer err reply).chptr := by
  unfold answer
  split <;> exact .refl _

theorem keeps_refuse : Keeps st.chptr (st.refuse env).chptr := keeps_answer _ ..

variable (st) in
theorem keeps_limited {next : ModeState → ModeState}
    (hnext : ∀ limit, Keeps st.chptr (next { st with modeLimit := limit }).chptr) :
    Keeps st.chptr (st.limited env next).chptr := by
  unfold limited
  split
  · dsimp only
    split
    · exact .refl _
    · exact hnext _
  · exact hnext st.modeLimit

variable (st) in
theorem keeps_setMask (type : BanType) (caps : Nat) (mems : Mems) (mask : CStr) :
    Keeps st.chptr (st.setMask env type caps mems c mask).chptr := by
  unfold setMask
  dsimp only
  split
  · exact .refl _
  · split
    · split <;> exact keeps_addId ..
    · split <;> exact keeps_delId ..
    · exact .refl _

theorem keeps_chmBan : Keeps st.chptr (st.chmBan env arg c).chptr := by
  unfold chmBan
  split
  · exact keeps_answer _ ..
  · split
    · exact keeps_refuse
    · exact keeps_limited st fun limit => keeps_setMask { st with modeLimit := limit } ..

theorem keeps_chmListed (type : BanType) (enabled : Bool) (err : SmErr) (caps : Nat) :
    Keeps st.chptr (st.chmListed env type enabled err caps arg c).chptr := by
  unfold chmListed
  split
  · exact keeps_answer _ ..
  · split
    · exact keeps_refuse
    · split
      · exact keeps_answer _ ..
      · exact keeps_limited st fun limit => keeps_setMask { st with modeLimit := limit } ..

theorem flagged_setFlags (who : Cid) {f : Finset ChFlag → Finset ChFlag} {flag : ChFlag}
    (hf : ∀ flags, flag ∈ f flags ↔ flag ∈ flags) :
    (st.setFlags who f).chptr.flagged flag = st.chptr.flagged flag := by
  unfold Channel.flagged setFlags
  dsimp only
  rw [List.map_map]
  apply List.map_congr_left
  intro ms _
  simp only [Function.comp_apply]
  split
  · simp [hf]
  · rfl

theorem keeps_chmStatus (need : ChAccess) {flag : ChFlag} {undeop : Finset ChFlag}
    (hundeop : undeop ⊆ {.deopped}) (hflag : flag ≠ .chanop)
    (hhalfop : flag = .halfop → .priv ∉ st.chptr.mode.mode) :
    Keeps st.chptr (st.chmStatus env need flag undeop arg c).chptr := by
  have hwrite : ∀ (st' : ModeState) (who : Cid) (other : ChFlag), other ≠ flag →
      other ≠ .deopped → (st'.setFlags who fun flags =>
        if st'.dir = .add then insert flag (flags \ undeop) else flags.erase flag).chptr.flagged
          other = st'.chptr.flagged other := by
    intro st' who other hne hdeopped
    apply flagged_setFlags
    intro flags
    have hnot : other ∉ undeop := fun hmem => hdeopped (Finset.mem_singleton.mp (hundeop hmem))
    split
    · simp [hne, hnot]
    · simp [hne]
  unfold chmStatus
  split
  · exact keeps_refuse
  · split
    · exact .refl _
    · dsimp only
      split
      · exact .refl _
      · split
        · exact .refl _
        · split
          · exact keeps_answer { st with parn := st.parn + 1 } ..
          · apply keeps_limited { st with parn := st.parn + 1 }
            intro limit
            split
            · exact .refl _
            · refine ⟨hwrite _ _ _ hflag.symm (by decide), .rfl, fun hpriv => ?_⟩
              exact hwrite _ _ _ (fun heq => hhalfop heq.symm hpriv) (by decide)

theorem keeps_chmLimit : Keeps st.chptr (st.chmLimit env arg c).chptr := by
  unfold chmLimit
  split
  · exact keeps_refuse
  · split
    · dsimp only
      split
      · exact .refl _
      · exact keeps_mode _ .rfl
    · split
      · exact .refl _
      · exact keeps_mode _ .rfl
    · exact .refl _

theorem keeps_chmKey : Keeps st.chptr (st.chmKey env arg c).chptr := by
  unfold chmKey
  split
  · exact keeps_refuse
  · split
    · dsimp only
      generalize (if env.mine = true then _ else _) = key
      split
      · exact .refl _
      · exact keeps_mode _ .rfl
    · rename_i param _ _ _
      have hdel : ∀ st : ModeState, Keeps st.chptr
          (if st.chptr.mode.key = [] then st
            else ({ st with chptr := { st.chptr with mode := { st.chptr.mode with key := [] } } } :
              ModeState).push { letter := c, dir := .del, arg := .text ['*'] }).chptr := by
        intro st
        split
        · exact .refl _
        · exact keeps_mode _ .rfl
      cases param with
      | none => exact hdel st
      | some key => exact hdel { st with parn := st.parn + 1 }
    · exact .refl _

theorem keeps_chmSimple (mode : SimpleMode) (hlow : env.alev.level < ChAccess.chanop.level) :
    Keeps st.chptr (st.chmSimple env mode c).chptr := by
  unfold chmSimple
  split
  · exact keeps_refuse
  · rename_i hallowed
    have hne : SimpleMode.priv ≠ mode := fun h => hallowed (.inr ⟨h.symm, hlow⟩)
    split
    · exact .refl _
    · dsimp only
      split
      · exact keeps_mode _ (by simp [hne])
      · exact keeps_mode _ (by simp [hne])
      · exact .refl _

theorem keeps_chmLetter (hlow : env.alev.level < ChAccess.chanop.level) :
    Keeps st.chptr (st.chmLetter env arg c).chptr := by
  unfold chmLetter
  split
  · exact keeps_chmListed ..
  · exact keeps_chmBan
  · exact keeps_chmListed ..
  · unfold chmHop
    by_cases hpriv : .priv ∈ st.chptr.mode.mode
    · rw [if_pos hpriv, chmStatus, if_pos hlow]
      exact keeps_refuse
    · exact keeps_chmStatus _ (Finset.Subset.refl _) (by decide) fun _ => hpriv
  · exact keeps_chmKey
  · exact keeps_chmLimit
  · rw [chmOp, chmStatus, if_pos hlow]
    exact keeps_refuse
  · exact keeps_chmStatus _ (Finset.empty_subset _) (by decide) fun h =>
      absurd h (by decide)
  · split
    · exact keeps_chmSimple _ hlow
    · exact keeps_answer _ ..

theorem quiet_modeStep (hlow : env.alev.level < ChAccess.halfop.level) :
    Quiet st (st.modeStep env arg c) := by
  unfold modeStep
  split
  · exact ⟨rfl, fun _ _ => .inl⟩
  · exact (⟨rfl, fun _ _ => .inl⟩ : Quiet st { st with back := none }).trans (quiet_chmLetter hlow)

theorem keeps_modeStep (hlow : env.alev.level < ChAccess.chanop.level) :
    Keeps st.chptr (st.modeStep env arg c).chptr := by
  unfold modeStep
  split
  · exact .refl _
  · have hletter : ∀ st' : ModeState, Keeps st'.chptr (st'.chmLetter env arg c).chptr :=
      fun _ => keeps_chmLetter hlow
    exact hletter { st with back := none }

end ModeState

/-! ### A whole line -/

namespace ParamStore

variable {σ : Type} {P : ParamStore σ} {env : ModeEnv}

theorem quiet_foldl_step (hlow : env.alev.level < ChAccess.halfop.level) (s : σ × ModeState)
    (modes : CStr) : ModeState.Quiet s.2 (modes.foldl (P.step env) s).2 := by
  induction modes generalizing s with
  | nil => exact .refl _
  | cons c modes ih => exact (ModeState.quiet_modeStep hlow).trans (ih (P.step env s c))

theorem keeps_foldl_step (hlow : env.alev.level < ChAccess.chanop.level) (s : σ × ModeState)
    (modes : CStr) : Keeps s.2.chptr (modes.foldl (P.step env) s).2.chptr := by
  induction modes generalizing s with
  | nil => exact .refl _
  | cons c modes ih => exact (ModeState.keeps_modeStep hlow).trans (ih (P.step env s c))

end ParamStore

/-! ### The access of a local client -/

variable {cl : Clients} {source : Cid} {chptr : Channel}

theorem access_eq_chanop_iff (hlocal : (cl source).myClient = true) :
    getChannelAccess (cl source) (findChannelLink cl source chptr) = .chanop ↔
      HasFlag cl source chptr .chanop := by
  unfold getChannelAccess HasFlag
  rw [hlocal]
  cases findChannelLink cl source chptr with
  | none => simp
  | some member =>
    simp only [Bool.not_true, Bool.false_eq_true, if_false, Option.some.injEq, exists_eq_left']
    split
    · simp_all
    · split <;> simp_all

theorem access_eq_halfop_iff (hlocal : (cl source).myClient = true) :
    getChannelAccess (cl source) (findChannelLink cl source chptr) = .halfop ↔
      HasFlag cl source chptr .halfop ∧ ¬HasFlag cl source chptr .chanop := by
  unfold getChannelAccess HasFlag
  rw [hlocal]
  cases findChannelLink cl source chptr with
  | none => simp
  | some member =>
    simp only [Bool.not_true, Bool.false_eq_true, if_false, Option.some.injEq, exists_eq_left']
    split
    · simp_all
    · split <;> simp_all

theorem level_lt_chanop (hlocal : (cl source).myClient = true)
    (hop : ¬HasFlag cl source chptr .chanop) :
    (getChannelAccess (cl source) (findChannelLink cl source chptr)).level <
      ChAccess.chanop.level := by
  rw [← access_eq_chanop_iff hlocal] at hop
  revert hop
  cases getChannelAccess (cl source) (findChannelLink cl source chptr) <;> decide

theorem level_lt_halfop (hlocal : (cl source).myClient = true)
    (hop : ¬HasFlag cl source chptr .chanop) (hhalfop : ¬HasFlag cl source chptr .halfop) :
    (getChannelAccess (cl source) (findChannelLink cl source chptr)).level <
      ChAccess.halfop.level := by
  have hnot : getChannelAccess (cl source) (findChannelLink cl source chptr) ≠ .halfop :=
    fun h => hhalfop ((access_eq_halfop_iff hlocal).mp h).1
  rw [← access_eq_chanop_iff hlocal] at hop
  revert hop hnot
  cases getChannelAccess (cl source) (findChannelLink cl source chptr) <;> decide

/-- A MODE of a local client on a channel: without a status there it changes nothing, a
half operator changes neither a channel operator nor `+p`, and on a private channel
no half operator, and the exceptions are shown only to the two. Every beginning of the
line is a line, so this is so in front of each of its letters. -/
theorem mode_never_escalates {σ : Type} (P : ParamStore σ) (cf : Config) (now : Int)
    (dir : Directory) (source : Cid) (chptr : Channel) (params : σ) (parc : Nat) (modes : CStr)
    (hlocal : (dir.clients source).myClient = true) :
    (¬HasFlag dir.clients source chptr .chanop → ¬HasFlag dir.clients source chptr .halfop →
      (P.setChannelMode (mModeEnv cf now dir source chptr parc) chptr params modes).2.chptr =
        chptr) ∧
    (¬HasFlag dir.clients source chptr .chanop →
      Keeps chptr
        (P.setChannelMode (mModeEnv cf now dir source chptr parc) chptr params modes).2.chptr) ∧
    ∀ type bans, .list type bans ∈
        (P.setChannelMode (mModeEnv cf now dir source chptr parc) chptr params modes).2.replies →
      type ≠ .ban →
      HasFlag dir.clients source chptr .chanop ∨ HasFlag dir.clients source chptr .halfop := by
  have hquiet := fun hop hhalfop =>
    have hlow : (mModeEnv cf now dir source chptr parc).alev.level < ChAccess.halfop.level :=
      level_lt_halfop hlocal hop hhalfop
    ParamStore.quiet_foldl_step (P := P) hlow (params, { chptr := chptr }) modes
  refine ⟨fun hop hhalfop => (hquiet hop hhalfop).chptr, fun hop => ?_, ?_⟩
  · have hlow : (mModeEnv cf now dir source chptr parc).alev.level < ChAccess.chanop.level :=
      level_lt_chanop hlocal hop
    exact ParamStore.keeps_foldl_step hlow (params, { chptr := chptr }) modes
  · intro type bans hmem hban
    by_contra hnone
    push Not at hnone
    rcases (hquiet hnone.1 hnone.2).replies type bans hmem with hold | his
    · cases hold
    · exact hban his

/-- A private channel with a half operator and a channel operator. -/
def halfopRoom : Channel :=
  { (default : Channel) with
    mode := { (default : Mode) with mode := {.priv} }
    members := [⟨0, {.halfop}, true⟩, ⟨1, {.chanop}, true⟩] }

/-- Every client is a local one, and every nick that of the channel operator. -/
def halfopDir : Directory :=
  ⟨fun _ => localSource, fun _ => none, fun _ => some 1, fun _ => none, fun _ => none⟩

/-- The half operator tries to take the status of the channel operator, and `+p` off. -/
theorem mode_never_escalates_halfop :
    HasFlag halfopDir.clients 0 halfopRoom .halfop ∧
      Keeps halfopRoom
        (textStore.setChannelMode (mModeEnv roomyConfig 0 halfopDir 0 halfopRoom 3) halfopRoom
          ["m-op+h".toList, "a".toList, "a".toList] "m-op+h".toList).2.chptr :=
  ⟨⟨⟨0, {.halfop}, true⟩, rfl, by decide⟩,
    (mode_never_escalates textStore roomyConfig 0 halfopDir 0 halfopRoom
      ["m-op+h".toList, "a".toList, "a".toList] 3 "m-op+h".toList rfl).2.1 (by
        rintro ⟨member, hmember, hop⟩
        cases hmember
        revert hop
        decide)⟩

end Ircd
