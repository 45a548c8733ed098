import Ircd.Lib.CBuffer
import Ircd.ModeAlign

/-!
Masks that are written back into the line they came with.

The parameters of a MODE are places in one line, and the masks of a BMASK places in one
buffer. `add_id` and `del_id` write the whole mask over the one they were given, which may be
longer and then runs over what comes next. The parameters and masks are all read as they were
sent just when no mask does that, or when what runs over is what stood there
(`masks_as_sent_iff`).
-/

namespace Ircd

open List
open CBuffer

/-! ### What is written over a mask -/

/-- What `add_id` writes over its mask. -/
def addText (cf : Config) (source : Client) (chptr : Channel) (mask : CStr) : CStr :=
  if source.myClient ∧ cf.channel.maxBans ≤ chptr.numMask then mask
  else
    let (name, user, host) := splitNuh cf.nicklen (addIdMask source mask)
    nuhText name user host

/-- What `del_id` writes over its mask. -/
def delText (cf : Config) (mask : CStr) : CStr :=
  let (name, user, host) := splitNuh cf.nicklen (checkString mask)
  nuhText name user host

section

variable {cf : Config} {now : Int} {source : Client} {chptr : Channel} {mask : CStr}
  {type : BanType} {c : Char}

theorem banid_addId (now : Int) (type : BanType) : (addId cf now source chptr mask type).banid =
    addText cf source chptr mask := by
  unfold addId addText
  split
  · rfl
  · dsimp only
    split <;> rfl

theorem banid_delId (chptr : Channel) (type : BanType) :
    (delId cf chptr mask type).banid = delText cf mask := rfl

theorem mem_maskPart {s : CStr} {size : Nat} (h : c ∈ maskPart s size) : c ∈ s ∨ c = '*' := by
  unfold maskPart at h
  split at h
  · exact .inr (by simpa using h)
  · exact .inl (mem_of_mem_take h)

theorem mem_splitNuh {n : Nat} {name user host : CStr}
    (hsplit : splitNuh n mask = (name, user, host)) (h : c ∈ name ∨ c ∈ user ∨ c ∈ host) :
    c ∈ mask ∨ c = '*' := by
  have hpart : ∀ {s : CStr} {size : Nat}, (∀ d ∈ s, d ∈ mask) → c ∈ maskPart s size →
      c ∈ mask ∨ c = '*' := fun hs hc => (mem_maskPart hc).imp_left (hs c)
  have hstar : c ∈ ['*'] → c ∈ mask ∨ c = '*' := fun hc => .inr (by simpa using hc)
  have htake : ∀ {size : Nat}, c ∈ strlcpy mask size → c ∈ mask ∨ c = '*' :=
    fun hc => .inl (mem_of_mem_take hc)
  unfold splitNuh at hsplit
  split at hsplit
  · rename_i nick p hbang
    have hmask := (strchr_eq_some hbang).1
    have hnick : ∀ d ∈ nick, d ∈ mask := fun d hd => by simp [hmask, hd]
    have hp : ∀ d ∈ p, d ∈ mask := fun d hd => by simp [hmask, hd]
    split at hsplit
    · rename_i user' host' hat
      have hrest := (strchr_eq_some hat).1
      cases hsplit
      rcases h with h | h | h
      · exact hpart hnick h
      · exact hpart (fun d hd => hp d (by simp [hrest, hd])) h
      · exact hpart (fun d hd => hp d (by simp [hrest, hd])) h
    · cases hsplit
      rcases h with h | h | h
      · exact hpart hnick h
      · exact hpart hp h
      · exact hstar h
  · split at hsplit
    · rename_i user' host' hat
      have hmask := (strchr_eq_some hat).1
      cases hsplit
      rcases h with h | h | h
      · exact hstar h
      · exact hpart (fun d hd => by simp [hmask, hd]) h
      · exact hpart (fun d hd => by simp [hmask, hd]) h
    · split at hsplit
      · cases hsplit
        rcases h with h | h | h
        · exact hstar h
        · exact hstar h
        · exact htake h
      · cases hsplit
        rcases h with h | h | h
        · exact htake h
        · exact hstar h
        · exact hstar h

theorem mem_checkString (h : c ∈ checkString mask) : c ∈ mask ∨ c = '*' := by
  unfold checkString at h
  split at h
  · exact .inr (by simpa using h)
  · exact .inl ((takeWhile_sublist _).subset h)

theorem mem_collapse (h : c ∈ collapse mask) : c ∈ mask := by
  induction mask with
  | nil => exact h
  | cons d p ih =>
    unfold collapse at h
    split at h
    · exact mem_cons_of_mem _ (ih h)
    · rcases List.mem_cons.mp h with rfl | hp
      · exact mem_cons_self
      · exact mem_cons_of_mem _ (ih hp)

theorem mem_nuhText_splitNuh {n : Nat}
    (h : c ∈ nuhText (splitNuh n mask).1 (splitNuh n mask).2.1 (splitNuh n mask).2.2) :
    c ∈ mask ∨ c = '*' ∨ c = '!' ∨ c = '@' := by
  have hparts := mem_splitNuh (c := c) (rfl : splitNuh n mask = (_, _, _))
  simp only [nuhText, mem_append, mem_cons] at h
  rcases h with (h | rfl | h) | rfl | h
  · exact (hparts (.inl h)).imp_right .inl
  · exact .inr (.inr (.inl rfl))
  · exact (hparts (.inr (.inl h))).imp_right .inl
  · exact .inr (.inr (.inr rfl))
  · exact (hparts (.inr (.inr h))).imp_right .inl

theorem mem_addText (h : c ∈ addText cf source chptr mask) :
    c ∈ mask ∨ c = '*' ∨ c = '!' ∨ c = '@' := by
  unfold addText at h
  split at h
  · exact .inl h
  · rcases mem_nuhText_splitNuh h with h | h
    · rcases mem_checkString h with h | h
      · split at h
        · exact .inl (mem_collapse h)
        · exact .inl h
      · exact .inr (.inl h)
    · exact .inr h

theorem mem_delText (h : c ∈ delText cf mask) : c ∈ mask ∨ c = '*' ∨ c = '!' ∨ c = '@' := by
  rcases mem_nuhText_splitNuh h with h | h
  · exact (mem_checkString h).imp_right .inl
  · exact .inr h

theorem cstr_addText (h : '\x00' ∉ mask) :
    cstr (addText cf source chptr mask) = addText cf source chptr mask :=
  cstr_of_notMem fun hmem => by simpa [h] using mem_addText hmem

theorem cstr_delText (h : '\x00' ∉ mask) : cstr (delText cf mask) = delText cf mask :=
  cstr_of_notMem fun hmem => by simpa [h] using mem_delText hmem

end

/-! ### The key and the limit -/

theorem length_fixKey (s : CStr) : (fixKey s).length ≤ s.length := by
  rw [fixKey]
  exact (length_filter_le _ _).trans (by simp)

theorem length_fixKeyOld (s : CStr) : (fixKeyOld s).length ≤ s.length := by
  rw [fixKeyOld]
  exact (takeWhile_sublist _).length_le.trans
    ((length_filter_le _ _).trans (by simp))

/-! ### What the letters write back -/

namespace ModeState

variable (env : ModeEnv) (st : ModeState)

/-- What the mask functions write over their mask. -/
def maskText (mask : CStr) : Option CStr :=
  if (env.dir.clients env.client).isServer ∧ ' ' ∈ mask then none
  else
    match st.dir with
    | .add => some (addText env.cf (env.dir.clients env.source) st.chptr mask)
    | .del => some (delText env.cf mask)
    | .query => none

/-- What a letter writes over a mask that it comes as far as. -/
def maskBack (c : Char) (mask : CStr) : Option CStr :=
  if c ∈ ['I', 'b', 'e'] ∧ st.Reaches env c then st.maskText env mask else none

variable {env} {st} {arg : Option CStr} {c : Char}

@[simp] theorem answer_back (err : SmErr) (reply : List ModeReply) :
    (st.answer err reply).back = st.back := by
  unfold answer
  split <;> rfl

@[simp] theorem refuse_back : (st.refuse env).back = st.back := by simp [refuse]

theorem setMask_back (type : BanType) (caps : Nat) (mems : Mems) (mask : CStr)
    (hback : st.back = none) :
    (st.setMask env type caps mems c mask).back = st.maskText env mask := by
  unfold setMask maskText
  dsimp only
  split
  · exact hback
  · cases st.dir with
    | add =>
      dsimp only
      rw [← banid_addId env.now type]
      split <;> rfl
    | del =>
      dsimp only
      rw [← banid_delId st.chptr type]
      split <;> rfl
    | query => exact hback

theorem limited_back {next : ModeState → ModeState} {text : Option CStr}
    (hback : st.back = none)
    (hnext : ∀ limit, (next { st with modeLimit := limit }).back = text) :
    (st.limited env next).back = if st.room env = true then text else none := by
  unfold limited room
  cases env.mine with
  | false => exact hnext st.modeLimit
  | true =>
    by_cases hroom : st.modeLimit < MAXMODEPARAMS
    · have hle : ¬MAXMODEPARAMS < st.modeLimit + 1 := by omega
      simp [hroom, hle, hnext]
    · have hlt : MAXMODEPARAMS < st.modeLimit + 1 := by omega
      simp [hroom, hlt, hback]

theorem chmBan_back (hback : st.back = none) : (st.chmBan env arg c).back =
    if ChAccess.halfop.level ≤ env.alev.level ∧ st.room env = true then
      arg.bind (st.maskText env)
    else none := by
  have hquery : st.dir = .query → arg.bind (st.maskText env) = none := by
    intro hdir
    cases arg <;> simp [maskText, hdir]
  unfold chmBan
  by_cases hdir : st.dir = .query
  · simp [hdir, hback, hquery hdir]
  · cases arg with
    | none => simp [hdir, hback]
    | some mask =>
      simp only [hdir, if_false, Option.bind_some]
      split
      · rename_i hlow
        rw [refuse_back, if_neg (fun h => absurd h.1 (not_le.mpr hlow)), hback]
      · rename_i hlevel
        have hset : ∀ limit, ({ st with modeLimit := limit }.setMask env .ban 0 .allMembers c
            mask).back = st.maskText env mask := fun limit => setMask_back _ _ _ _ hback
        rw [limited_back hback hset]
        simp [not_lt.mp hlevel]

theorem chmListed_back (hback : st.back = none) (type : BanType) (enabled : Bool) (err : SmErr)
    (caps : Nat) : (st.chmListed env type enabled err caps arg c).back =
      if ChAccess.halfop.level ≤ env.alev.level ∧ st.room env = true ∧
        (env.mine = true → st.dir = .add → enabled = true) then arg.bind (st.maskText env)
      else none := by
  have hquery : st.dir = .query → arg.bind (st.maskText env) = none := by
    intro hdir
    cases arg <;> simp [maskText, hdir]
  unfold chmListed
  split
  · rename_i hoff
    rw [answer_back, hback, if_neg]
    rintro ⟨-, -, henabled⟩
    simp [henabled hoff.2.1 hoff.2.2.1] at hoff
  · rename_i henabled
    split
    · rename_i hlow
      rw [refuse_back, if_neg (fun h => absurd h.1 (not_le.mpr hlow)), hback]
    · rename_i hlevel
      by_cases hdir : st.dir = .query
      · simp [hdir, hback, hquery hdir]
      · cases arg with
        | none => simp [hdir, hback]
        | some mask =>
          simp only [hdir, if_false, Option.bind_some]
          have hset : ∀ limit, ({ st with modeLimit := limit }.setMask env type caps
              (if enabled = true then .onlyChanops else .onlyServers) c mask).back =
              st.maskText env mask := fun limit => setMask_back _ _ _ _ hback
          rw [limited_back hback hset]
          have hon : (env.mine = true → st.dir = .add → enabled = true) ↔ True := by
            refine iff_true_intro fun hmine hadd => ?_
            by_contra hoff
            exact henabled ⟨by simpa using hoff, hmine, hadd, rfl⟩
          simp only [hon]
          simp [not_lt.mp hlevel]

theorem mask_back_chmLetter (hback : st.back = none) (hc : c ∈ ['I', 'b', 'e']) :
    (st.chmLetter env arg c).back = arg.bind (st.maskBack env c) := by
  have hif : ∀ {p : Prop} [Decidable p], (st.Reaches env c ↔ p) →
      (if p then arg.bind (st.maskText env) else none) = arg.bind (st.maskBack env c) := by
    intro p _ hp
    cases arg with
    | none => simp
    | some mask =>
      by_cases h : p
      · simp [maskBack, hc, hp, h]
      · simp [maskBack, hp, h]
  simp only [mem_cons, not_mem_nil, or_false] at hc
  rcases hc with rfl | rfl | rfl
  · rw [← hif (p := ChAccess.halfop.level ≤ env.alev.level ∧ st.room env = true ∧
      (env.mine = true → st.dir = .add → env.cf.channel.useInvex = true)) (by
        simp [Reaches, needed])]
    exact chmListed_back hback ..
  · rw [← hif (p := ChAccess.halfop.level ≤ env.alev.level ∧ st.room env = true) (by
      simp [Reaches, needed])]
    exact chmBan_back hback
  · rw [← hif (p := ChAccess.halfop.level ≤ env.alev.level ∧ st.room env = true ∧
      (env.mine = true → st.dir = .add → env.cf.channel.useExcept = true)) (by
        simp [Reaches, needed])]
    exact chmListed_back hback ..

/-- What was written back is not longer than the parameter that was used up. -/
def ShortBack (st : ModeState) (arg : Option CStr) (st' : ModeState) : Prop :=
  ∀ text, st'.back = some text → ∃ word, arg = some word ∧ text.length ≤ word.length ∧
    st'.parn = st.parn + 1

theorem shortBack_of_none {st' : ModeState} (h : st'.back = none) : ShortBack st arg st' := by
  intro text htext
  rw [h] at htext
  cases htext

theorem chmStatus_back (hback : st.back = none) (need : ChAccess) (flag : ChFlag)
    (undeop : Finset ChFlag) : (st.chmStatus env need flag undeop arg c).back = none := by
  unfold chmStatus
  split
  · rw [refuse_back, hback]
  · split
    · exact hback
    · dsimp only
      split
      · exact hback
      · split
        · exact hback
        · split
          · rw [answer_back]
            exact hback
          · refine (limited_back ?_ fun limit => ?_).trans (ite_self none)
            · exact hback
            · split <;> exact hback

theorem chmKey_back (hback : st.back = none) : ShortBack st arg (st.chmKey env arg c) := by
  unfold chmKey
  split
  · exact shortBack_of_none (by rw [refuse_back, hback])
  · split
    · rename_i key hdir
      have hkey : (if env.mine = true then fixKey key else fixKeyOld key).length ≤ key.length := by
        split
        · exact length_fixKey key
        · exact length_fixKeyOld key
      generalize (if env.mine = true then fixKey key else fixKeyOld key) = text at hkey ⊢
      intro text' htext'
      dsimp only at htext' ⊢
      split at htext'
      · obtain rfl : text = text' := by simpa using htext'
        exact ⟨key, rfl, hkey, by rw [if_pos ‹_›]⟩
      · obtain rfl : text = text' := by simpa [push, dropEarlier] using htext'
        exact ⟨key, rfl, hkey, by rw [if_neg ‹_›]; rfl⟩
    · apply shortBack_of_none
      dsimp only
      split
      · split <;> exact hback
      · split <;> exact hback
    · exact shortBack_of_none hback

theorem chmLimit_back (hback : st.back = none) : ShortBack st arg (st.chmLimit env arg c) := by
  unfold chmLimit
  split
  · exact shortBack_of_none (by rw [refuse_back, hback])
  · split
    · rename_i lstr hdir
      dsimp only
      split
      · exact shortBack_of_none hback
      · rename_i hpos
        intro text htext
        obtain rfl : dText (atoi lstr) = text := by simpa using htext
        exact ⟨lstr, rfl, length_dText_atoi (by omega), rfl⟩
    · apply shortBack_of_none
      split
      · exact hback
      · exact hback
    · exact shortBack_of_none hback

theorem short_back_chmLetter (hback : st.back = none) (hc : c ∉ ['I', 'b', 'e']) :
    ShortBack st arg (st.chmLetter env arg c) := by
  simp only [mem_cons, not_mem_nil, or_false, not_or] at hc
  unfold chmLetter
  split
  · exact absurd rfl hc.1
  · exact absurd rfl hc.2.1
  · exact absurd rfl hc.2.2
  · exact shortBack_of_none (chmStatus_back hback ..)
  · exact chmKey_back hback
  · exact chmLimit_back hback
  · exact shortBack_of_none (chmStatus_back hback ..)
  · exact shortBack_of_none (chmStatus_back hback ..)
  · apply shortBack_of_none
    split
    · unfold chmSimple
      split
      · rw [refuse_back, hback]
      · split
        · exact hback
        · dsimp only
          split <;> exact hback
    · rw [chmNosuch, answer_back, hback]

theorem parn_of_maskBack {mask text : CStr}
    (h : st.maskBack env c mask = some text) :
    (st.chmLetter env (some mask) c).parn = st.parn + 1 := by
  unfold maskBack maskText at h
  split at h
  · rename_i hreach
    have hdir : st.dir ≠ .query := by
      intro hdir
      rw [hdir] at h
      simp at h
    have htakes : modeTakes st.dir c = true := by
      have hmem : c ∈ ['I', 'b', 'e', 'h', 'k', 'o', 'v'] := by
        have := hreach.1
        simp only [mem_cons, not_mem_nil, or_false] at this ⊢
        rcases this with rfl | rfl | rfl <;> simp
      simp [modeTakes, hdir, hmem]
    rw [parn_chmLetter, if_pos ⟨⟨htakes, rfl⟩, hreach.2⟩]
  · cases h

theorem maskBack_of_notMem {mask : CStr} (hc : c ∉ ['I', 'b', 'e']) :
    st.maskBack env c mask = none := if_neg fun h => hc h.1

theorem modeStep_cases (env : ModeEnv) (st : ModeState) (arg : Option CStr) (c : Char) :
    let st' := st.modeStep env arg c
    (st'.back = none ∧ st.parn ≤ st'.parn ∧
        ∀ mask, arg = some mask → st.maskBack env c mask = none) ∨
      ∃ mask text, arg = some mask ∧ st'.back = some text ∧ st'.parn = st.parn + 1 ∧
        (st.maskBack env c mask = some text ∨
          st.maskBack env c mask = none ∧ text.length ≤ mask.length) := by
  unfold modeStep
  cases hsign : signDir c with
  | some dir =>
    have hc : c ∉ ['I', 'b', 'e'] := by
      intro hc
      simp only [mem_cons, not_mem_nil, or_false] at hc
      rcases hc with rfl | rfl | rfl <;> cases hsign
    exact .inl ⟨rfl, le_rfl, fun mask _ => maskBack_of_notMem hc⟩
  | none =>
    intro st'
    have hle : st.parn ≤ st'.parn := by
      rw [parn_chmLetter]
      split
      · exact Nat.le_succ _
      · exact le_rfl
    by_cases hc : c ∈ ['I', 'b', 'e']
    · have hback : st'.back = arg.bind (st.maskBack env c) := mask_back_chmLetter rfl hc
      cases hmask : st'.back with
      | none =>
        refine .inl ⟨rfl, hle, fun mask harg => ?_⟩
        rw [hmask, harg] at hback
        exact hback.symm
      | some text =>
        rw [hmask] at hback
        obtain ⟨mask, harg, htext⟩ := Option.bind_eq_some_iff.mp hback.symm
        refine .inr ⟨mask, text, harg, rfl, ?_, .inl htext⟩
        subst harg
        have hcleared :
            ({ st with back := none } : ModeState).maskBack env c mask = some text :=
          htext
        exact parn_of_maskBack hcleared
    · have hshort : ShortBack { st with back := none } arg st' := short_back_chmLetter rfl hc
      cases hback : st'.back with
      | none => exact .inl ⟨rfl, hle, fun mask _ => maskBack_of_notMem hc⟩
      | some text =>
        obtain ⟨word, harg, hlen, hparn⟩ := hshort text hback
        exact .inr ⟨word, text, harg, rfl, hparn, .inr ⟨maskBack_of_notMem hc, hlen⟩⟩

/-! ### What the letters put on the lists -/

/-- What is on a list afterwards was there, or is the parameter brought into its parts. -/
def AddsMask (env : ModeEnv) (st : ModeState) (arg : Option CStr) (st' : ModeState) : Prop :=
  ∀ type, ∀ bp ∈ st'.chptr.list type, bp ∈ st.chptr.list type ∨
    ∃ mask, arg = some mask ∧ bp = newBan env.cf env.now (env.dir.clients env.source) mask

theorem addsMask_of_list {st' : ModeState}
    (h : ∀ type, st'.chptr.list type = st.chptr.list type) : AddsMask env st arg st' :=
  fun type _ hbp => .inl (h type ▸ hbp)

theorem answer_chptr (err : SmErr) (reply : List ModeReply) :
    (st.answer err reply).chptr = st.chptr := by
  unfold answer
  split <;> rfl

theorem addsMask_refl : AddsMask env st arg st := fun _ _ => .inl

theorem AddsMask.trans {st' st'' : ModeState} (h : AddsMask env st arg st')
    (h' : AddsMask env st' arg st'') : AddsMask env st arg st'' := by
  intro type bp hbp
  rcases h' type bp hbp with hold | hnew
  · exact h type bp hold
  · exact .inr hnew

theorem list_mode (chptr : Channel) (mode : Mode) (type : BanType) :
    ({ chptr with mode := mode } : Channel).list type = chptr.list type := by
  cases type <;> rfl

theorem list_members (chptr : Channel) (members : List Membership) (type : BanType) :
    ({ chptr with members := members } : Channel).list type = chptr.list type := by
  cases type <;> rfl

theorem addsMask_setMask (type : BanType) (caps : Nat) (mems : Mems) (mask : CStr) :
    AddsMask env st (some mask) (st.setMask env type caps mems c mask) := by
  intro t bp hbp
  unfold setMask at hbp
  dsimp only at hbp
  split at hbp
  · exact .inl hbp
  · split at hbp
    · have hlist : bp ∈
          (addId env.cf env.now (env.dir.clients env.source) st.chptr mask type).chptr.list t := by
        split at hbp <;> exact hbp
      rw [list_addId] at hlist
      split at hlist
      · rcases List.mem_cons.mp hlist with rfl | hold
        · exact .inr ⟨mask, rfl, rfl⟩
        · exact .inl hold
      · exact .inl hlist
    · have hlist : bp ∈ (delId env.cf st.chptr mask type).chptr.list t := by
        split at hbp <;> exact hbp
      rw [list_delId] at hlist
      split at hlist
      · exact .inl (eraseP_subset hlist)
      · exact .inl hlist
    · exact .inl hbp

theorem addsMask_move {st' : ModeState} (h : Move env arg c st st') : AddsMask env st arg st' := by
  cases h with
  | answer => exact addsMask_of_list fun type => by rw [answer_chptr]
  | count => exact addsMask_refl
  | use => exact addsMask_refl
  | mask type caps mems hdir harg =>
    subst harg
    exact addsMask_setMask type caps mems _
  | status => exact addsMask_of_list fun type => list_members ..
  | drop => exact addsMask_refl
  | limitOn => exact addsMask_of_list fun type => list_mode ..
  | limitOff => exact addsMask_of_list fun type => list_mode ..
  | keyOn => exact addsMask_of_list fun type => list_mode ..
  | keyOff => exact addsMask_of_list fun type => list_mode ..
  | simple => exact addsMask_of_list fun type => list_mode ..
  | seen => exact addsMask_refl

theorem addsMask_moves {st' : ModeState} (h : Moves env arg c st st') :
    AddsMask env st arg st' := by
  induction h with
  | refl => exact addsMask_refl
  | tail _ hmove ih => exact ih.trans (addsMask_move hmove)

theorem addsMask_modeStep : AddsMask env st arg (st.modeStep env arg c) := by
  unfold modeStep
  split
  · exact addsMask_refl
  · have hletter : AddsMask env { st with back := none } arg
        ({ st with back := none }.chmLetter env arg c) := addsMask_moves moves_chmLetter
    exact hletter

end ModeState

/-! ### The parameters of a MODE in their line -/

/-- A line that was taken apart: its bytes, the number of parameters from the mode string on,
and where each of them starts. -/
structure ModeLine where
  bytes : List Char
  parc : Nat
  offs : Nat → Nat
  apart : ∀ i, i + 1 < parc → offs i + (strAt bytes (offs i)).length < offs (i + 1)
  inside : ∀ i < parc, offs i ≤ bytes.length

namespace ModeLine

variable (line : ModeLine) (env : ModeEnv)

def token (i : Nat) : CStr := strAt line.bytes (line.offs i)

/-- The parameters are read from the line, and written back into it. -/
def store : ParamStore (List Char) where
  read bytes i := strAt bytes (line.offs i)
  write bytes i text := putStr bytes (line.offs i) text

/-- Every parameter is read as it was sent. -/
def asSent : ParamStore Unit where
  read _ i := line.token i
  write _ _ _ := ()

/-- The number of parameters is that of the line. -/
def on : ModeEnv := { env with parc := line.parc }

/-- `set_channel_mode` over the line. -/
def run (chptr : Channel) (modes : CStr) : List Char × ModeState :=
  line.store.setChannelMode (line.on env) chptr line.bytes modes

/-- The parameters that are left to use are what was sent. -/
def Intact (s : List Char × ModeState) : Prop :=
  ∀ j, s.2.parn ≤ j → j < line.parc → strAt s.1 (line.offs j) = line.token j

/-- After every part of the mode string the parameters that are left are those that were sent,
and what each letter puts on a list is the mask that was sent at its place, brought into its
parts. -/
structure MasksAsSent (chptr : Channel) (modes : CStr) : Prop where
  intact : ∀ done, done <+: modes → line.Intact (line.run env chptr done)
  stored : ∀ done c, done ++ [c] <+: modes → ∀ type,
    ∀ bp ∈ (line.run env chptr (done ++ [c])).2.chptr.list type,
      bp ∈ (line.run env chptr done).2.chptr.list type ∨
        bp = newBan env.cf env.now (env.dir.clients env.source)
          (line.token (line.run env chptr done).2.parn)

/-- The mask of a letter, brought into its parts, ends in front of the next parameter, or what
runs over it is that parameter. -/
def Fits (s : Unit × ModeState) (c : Char) : Prop :=
  ∀ text, s.2.maskBack (line.on env) c (line.token s.2.parn) = some text →
    s.2.parn + 1 < line.parc →
      line.offs s.2.parn + text.length < line.offs (s.2.parn + 1) ∨
        text.drop (line.offs (s.2.parn + 1) - line.offs s.2.parn) = line.token (s.2.parn + 1)

variable {line} {env}

theorem nul_notMem_token (i : Nat) : '\x00' ∉ line.token i :=
  fun h => ne_nul_of_mem_cstr h rfl

theorem token_lt {i j : Nat} (hij : i < j) (hj : j < line.parc) :
    line.offs i + (line.token i).length < line.offs j := by
  induction j with
  | zero => omega
  | succ j ih =>
    have hnext := line.apart j hj
    rcases Nat.lt_succ_iff_lt_or_eq.mp hij with hlt | rfl
    · have hle := ih hlt (by omega)
      omega
    · exact hnext

theorem cstr_maskBack {st : ModeState} {c : Char} {i : Nat} {text : CStr}
    (h : st.maskBack env c (line.token i) = some text) : cstr text = text := by
  unfold ModeState.maskBack ModeState.maskText at h
  split at h
  · split at h
    · cases h
    · split at h
      · obtain rfl : addText _ _ _ _ = text := by simpa using h
        exact cstr_addText (nul_notMem_token i)
      · obtain rfl : delText _ _ = text := by simpa using h
        exact cstr_delText (nul_notMem_token i)
      · cases h
  · cases h

/-- A text written over a parameter leaves the later ones as they are just when the next one
is left. -/
theorem intact_putStr_iff {s : List Char × ModeState} (h : line.Intact s)
    (hlen : line.bytes.length ≤ s.1.length) (hparn : s.2.parn < line.parc) (text : CStr) :
    (∀ j, s.2.parn + 1 ≤ j → j < line.parc →
        strAt (putStr s.1 (line.offs s.2.parn) text) (line.offs j) = line.token j) ↔
      (s.2.parn + 1 < line.parc →
        line.offs s.2.parn + (cstr text).length < line.offs (s.2.parn + 1) ∨
          (cstr text).drop (line.offs (s.2.parn + 1) - line.offs s.2.parn) =
            line.token (s.2.parn + 1)) := by
  have hp : line.offs s.2.parn ≤ s.1.length := (line.inside _ hparn).trans hlen
  have hbehind : ∀ j, s.2.parn + 1 ≤ j → j < line.parc → line.offs s.2.parn ≤ line.offs j := by
    intro j hj hj'
    have hlt := line.token_lt (i := s.2.parn) hj hj'
    omega
  constructor
  · intro hall hnext
    have hread := hall (s.2.parn + 1) le_rfl hnext
    rw [strAt_putStr hp (hbehind _ le_rfl hnext)] at hread
    split at hread
    · exact .inl ‹_›
    · exact .inr hread
  · intro hfits j hj hj'
    have hfit := hfits (by omega)
    rw [strAt_putStr hp (hbehind j hj hj')]
    rcases Nat.lt_or_eq_of_le hj with hlater | rfl
    · -- what runs over the next parameter ends with it, in front of this one
      have hnext := line.token_lt hlater hj'
      have hclear : line.offs s.2.parn + (cstr text).length < line.offs j := by
        rcases hfit with hlt | heq
        · omega
        · have hover := congrArg List.length heq
          rw [length_drop] at hover
          have hle := hbehind (s.2.parn + 1) le_rfl (by omega)
          omega
      rw [if_pos hclear]
      exact h j (by omega) hj'
    · split
      · exact h _ (by omega) hj'
      · rename_i hover
        exact hfit.resolve_left hover

theorem Intact.next_eq {s : List Char × ModeState} (h : line.Intact s) :
    line.store.next (line.on env) s =
      if s.2.parn < line.parc then some (line.token s.2.parn) else none := by
  unfold ParamStore.next
  by_cases hparn : s.2.parn < line.parc
  · rw [if_pos hparn]
    exact (if_pos hparn).trans (congrArg some (h _ le_rfl hparn))
  · rw [if_neg hparn]
    exact if_neg hparn

theorem Intact.step_eq {s : List Char × ModeState} (h : line.Intact s) (c : Char) :
    (line.store.step (line.on env) s c).2 = (line.asSent.step (line.on env) ((), s.2) c).2 := by
  have hnext : line.store.next (line.on env) s = line.asSent.next (line.on env) ((), s.2) := by
    rw [h.next_eq]
    rfl
  simp only [ParamStore.step, hnext]

theorem Intact.step_iff {s : List Char × ModeState} (h : line.Intact s)
    (hlen : line.bytes.length ≤ s.1.length) (env : ModeEnv) (c : Char) :
    (line.Intact (line.store.step (line.on env) s c) ↔ line.Fits env ((), s.2) c) ∧
      line.bytes.length ≤ (line.store.step (line.on env) s c).1.length := by
  rcases ModeState.modeStep_cases (line.on env) s.2 (line.store.next (line.on env) s) c with
    ⟨hback, hparn, hnone⟩ | ⟨mask, text, harg, hback, hparn, htext⟩
  · have hbytes : (line.store.step (line.on env) s c).1 = s.1 := by
      simp only [ParamStore.step, hback]
    have hintact : line.Intact (line.store.step (line.on env) s c) := by
      intro j hj hj'
      rw [hbytes]
      exact h j (hparn.trans hj) hj'
    refine ⟨iff_of_true hintact fun text htext hnext => ?_, by rw [hbytes]; exact hlen⟩
    have harg : line.store.next (line.on env) s = some (line.token s.2.parn) := by
      rw [h.next_eq, if_pos]
      exact Nat.lt_of_succ_lt hnext
    rw [hnone _ harg] at htext
    cases htext
  · have hlt : s.2.parn < line.parc :=
      ParamStore.isSome_next.mp (by rw [harg]; rfl : (line.store.next (line.on env) s).isSome =
        true)
    have hmask : mask = line.token s.2.parn := by
      rw [h.next_eq, if_pos hlt] at harg
      exact (Option.some.inj harg).symm
    subst hmask
    have hbytes : (line.store.step (line.on env) s c).1 =
        putStr s.1 (line.offs s.2.parn) text := by simp only [ParamStore.step, hback]; rfl
    have hintact : line.Intact (line.store.step (line.on env) s c) ↔
        ∀ j, s.2.parn + 1 ≤ j → j < line.parc →
          strAt (putStr s.1 (line.offs s.2.parn) text) (line.offs j) = line.token j := by
      unfold Intact
      rw [hbytes]
      exact (Iff.of_eq (by rw [← hparn]; rfl))
    refine ⟨?_, ?_⟩
    · rw [hintact, intact_putStr_iff h hlen hlt]
      rcases htext with hmask | ⟨hnone, hshort⟩
      · rw [cstr_maskBack hmask]
        constructor
        · intro hfit text' htext'
          obtain rfl : text = text' := Option.some.inj (hmask.symm.trans htext')
          exact hfit
        · intro hfits
          exact hfits text hmask
      · refine iff_of_true (fun hnext => .inl ?_) fun text' htext' => ?_
        · have hlen' : (cstr text).length ≤ (line.token s.2.parn).length :=
            length_cstr_le.trans hshort
          have hnext' := line.token_lt (Nat.lt_add_one s.2.parn) hnext
          omega
        · rw [hnone] at htext'
          cases htext'
    · rw [hbytes]
      exact hlen.trans (length_le_putStr ((line.inside _ hlt).trans hlen))

theorem intact_iff_guarded {s : List Char × ModeState} (h : line.Intact s)
    (hlen : line.bytes.length ≤ s.1.length) (modes : CStr) :
    (∀ done, done <+: modes →
        line.Intact (Run.exec (line.store.step (line.on env)) s done)) ↔
      Run.Guarded (line.asSent.step (line.on env)) (line.Fits env) ((), s.2) modes := by
  induction modes generalizing s with
  | nil =>
    refine iff_of_true (fun done hdone => ?_) trivial
    obtain rfl := List.prefix_nil.mp hdone
    exact h
  | cons c modes ih =>
    obtain ⟨hstep, hlen'⟩ := h.step_iff hlen env c
    have hstate : line.asSent.step (line.on env) ((), s.2) c =
        ((), (line.store.step (line.on env) s c).2) := by rw [h.step_eq]
    rw [Run.Guarded, hstate]
    constructor
    · intro hall
      have hone : line.Intact (line.store.step (line.on env) s c) := hall [c] (by simp)
      refine ⟨hstep.mp hone, (ih hone hlen').mp fun done hdone => ?_⟩
      exact hall (c :: done) (List.cons_prefix_cons.mpr ⟨rfl, hdone⟩)
    · rintro ⟨hfit, hrest⟩ done hdone
      cases done with
      | nil => exact h
      | cons d done =>
        obtain ⟨rfl, htail⟩ := List.cons_prefix_cons.mp hdone
        exact (ih (hstep.mpr hfit) hlen').mpr hrest done htail

theorem Intact.stored {s : List Char × ModeState} (h : line.Intact s) (c : Char)
    (type : BanType) :
    ∀ bp ∈ (line.store.step (line.on env) s c).2.chptr.list type, bp ∈ s.2.chptr.list type ∨
      bp = newBan env.cf env.now (env.dir.clients env.source) (line.token s.2.parn) := by
  intro bp hbp
  apply (ModeState.addsMask_modeStep type bp hbp).imp_right
  rintro ⟨mask, harg, rfl⟩
  rw [h.next_eq] at harg
  split at harg
  · obtain rfl : line.token s.2.parn = mask := Option.some.inj harg
    rfl
  · cases harg

theorem masksAsSent_iff (chptr : Channel) (modes : CStr) : line.MasksAsSent env chptr modes ↔
    Run.Guarded (line.asSent.step (line.on env)) (line.Fits env) ((), { chptr := chptr })
      modes := by
  have h0 : line.Intact (line.bytes, { chptr := chptr }) := fun _ _ _ => rfl
  rw [← intact_iff_guarded h0 le_rfl]
  constructor
  · exact fun h => h.intact
  · refine fun hall => ⟨hall, fun done c hdone => ?_⟩
    have hintact := hall done ((prefix_append done [c]).trans hdone)
    have hrun : line.run env chptr (done ++ [c]) =
        line.store.step (line.on env) (line.run env chptr done) c := by
      simp [run, ParamStore.setChannelMode]
    rw [hrun]
    exact Intact.stored hintact c

end ModeLine

/-! ### The masks of a BMASK in their buffer -/

/-- What does not change during the loop of `ms_bmask`: the letter of `parv[3]` with its list,
and `modebuf` up to the `+`. -/
structure BmaskEnv where
  cf : Config
  now : Int
  source : Client
  letter : Char
  type : BanType
  modebuf : CStr

/-- The variables of `ms_bmask`. `s` is a place in `banbuf`, `mbuf` and `pbuf` stand for what
was written up to them, and `sent` for the lines that were handed to the send functions. -/
structure Bmask where
  banbuf : List Char
  s : Option Nat
  chptr : Channel
  mbuf : CStr := []
  pbuf : CStr := []
  modecount : Nat := 0
  sent : List CStr := []

namespace BmaskEnv

variable (env : BmaskEnv)

def flush (m : Bmask) : Bmask :=
  { m with
    sent := m.sent ++ [env.modebuf ++ m.mbuf ++ ' ' :: m.pbuf.dropLast]
    mbuf := [], pbuf := [], modecount := 0 }

/-- A mask is put behind the others, where it fits. -/
def put (tlen : Nat) (mask : CStr) (m : Bmask) : Bmask :=
  let m :=
    if IRCD_BUFSIZE - 2 < (env.modebuf ++ m.mbuf).length + 2 + m.pbuf.length + tlen ∨
        MAXMODEPARAMS ≤ m.modecount then env.flush m
    else m
  { m with
    mbuf := m.mbuf ++ [env.letter], pbuf := m.pbuf ++ mask ++ [' '], modecount := m.modecount + 1 }

/-- The loop of `ms_bmask` from the mask at `s` on that was cut off in front of `t`. -/
def handle (m : Bmask) (s : Nat) (tok : CStr) (t : Option Nat) : Bmask :=
  if MODEBUFLEN < tok.length then { m with s := none }
  else if tok ≠ [] ∧ tok.head? ≠ some ':' then
    let r := addId env.cf env.now env.source m.chptr tok env.type
    let m := { m with s := t, banbuf := putStr m.banbuf s r.banid, chptr := r.chptr }
    if r.ok then env.put tok.length r.banid m else m
  else { m with s := t }

/-- The body of the loop over `banbuf`. -/
def round (m : Bmask) : Bmask :=
  match m.s with
  | none => m
  | some s =>
    match strchr ' ' (strAt m.banbuf s) with
    | some (tok, _) =>
      env.handle { m with banbuf := poke m.banbuf (s + tok.length) ['\x00'] } s tok
        (some (s + tok.length + 1))
    | none => env.handle m s (strAt m.banbuf s) none

/-- `ms_bmask` in front of its loop. -/
def start (chptr : Channel) (masks : CStr) : Bmask where
  banbuf := putStr [] 0 (strlcpy masks IRCD_BUFSIZE)
  s := some 0
  chptr := chptr

def after (chptr : Channel) (masks : CStr) (n : Nat) : Bmask := env.round^[n] (start chptr masks)

end BmaskEnv

/-- The lists of `ms_bmask` and the capabilities they need. -/
def bmaskType : CStr → Option (BanType × Nat)
  | 'b' :: _ => some (.ban, 0)
  | 'e' :: _ => some (.exception, CAP_EX)
  | 'I' :: _ => some (.invex, CAP_IE)
  | _ => none

/-- What `ms_bmask` does: the channel, the MODE lines for local members and for servers
without `CAP_TS6`, the capability that servers need, and the line for the other servers. -/
structure BmaskResult where
  chptr : Channel
  lines : List CStr
  needcap : Nat
  forward : CStr

/-- `ms_bmask` on an existing channel. The loop takes fewer rounds than `banbuf` has bytes. -/
def msBmask (cf : Config) (now : Int) (source : Client) (chptr : Channel) (ts mode masks : CStr) :
    Option BmaskResult :=
  if chptr.channelts < strtol ts then none
  else
    match bmaskType mode with
    | none => none
    | some (type, needcap) =>
      let env : BmaskEnv :=
        { cf := cf, now := now, source := source, letter := mode.headD '\x00', type := type
          modebuf := ':' :: source.name ++ " MODE ".toList ++ chptr.chname ++ " +".toList }
      let m := env.after chptr masks IRCD_BUFSIZE
      some
        { chptr := m.chptr
          lines := if m.modecount = 0 then m.sent else (env.flush m).sent
          needcap := needcap
          forward := ':' :: source.id ++ " BMASK ".toList ++ luText (toULong chptr.channelts) ++
            ' ' :: chptr.chname ++ ' ' :: mode ++ " :".toList ++ masks }

namespace BmaskEnv

variable (env : BmaskEnv)

/-- The masks of the line, as `ms_bmask` copies it. -/
def tokens (masks : CStr) : List CStr := (cstr (strlcpy masks IRCD_BUFSIZE)).splitOn ' '

def left (m : Bmask) : Option CStr := m.s.map (strAt m.banbuf)

/-- Up to a mask that is too long, what is left to read after every round are the masks that
were sent, and what each round puts on a list is the mask that was sent in its place, brought
into its parts. -/
structure MasksAsSent (chptr : Channel) (masks : CStr) : Prop where
  intact : ∀ done rest, tokens masks = done ++ rest → rest ≠ [] →
    (∀ tok ∈ done, tok.length ≤ MODEBUFLEN) →
      left (env.after chptr masks done.length) = some ([' '].intercalate rest)
  stored : ∀ done tok rest, tokens masks = done ++ tok :: rest →
    (∀ tok ∈ done, tok.length ≤ MODEBUFLEN) → ∀ type,
      ∀ bp ∈ (env.after chptr masks (done.length + 1)).chptr.list type,
        bp ∈ (env.after chptr masks done.length).chptr.list type ∨
          bp = newBan env.cf env.now env.source tok

/-- A mask that `ms_bmask` hands to `add_id`. -/
def Handed (tok : CStr) : Prop :=
  tok.length ≤ MODEBUFLEN ∧ tok ≠ [] ∧ tok.head? ≠ some ':'

instance (tok : CStr) : Decidable (Handed tok) := inferInstanceAs (Decidable (_ ∧ _ ∧ _))

def addTok (chptr : Channel) (tok : CStr) : Channel :=
  if Handed tok then (addId env.cf env.now env.source chptr tok env.type).chptr else chptr

/-- Each mask that others follow, brought into its parts, is not longer than it was, or what
runs over them is just what they are. -/
def Fits : Channel → List CStr → Prop
  | _, [] => True
  | chptr, tok :: rest =>
    tok.length ≤ MODEBUFLEN →
      (rest ≠ [] → Handed tok →
        (addText env.cf env.source chptr tok).length ≤ tok.length ∨
          (addText env.cf env.source chptr tok).drop (tok.length + 1) =
            [' '].intercalate rest) ∧
      Fits (env.addTok chptr tok) rest

variable {env}

theorem put_eq (tlen : Nat) (mask : CStr) (m : Bmask) : (env.put tlen mask m).banbuf = m.banbuf ∧
    (env.put tlen mask m).s = m.s ∧ (env.put tlen mask m).chptr = m.chptr := by
  unfold put flush
  dsimp only
  split <;> exact ⟨rfl, rfl, rfl⟩

theorem handle_chptr (m : Bmask) (s : Nat) (tok : CStr) (t : Option Nat) :
    (env.handle m s tok t).chptr = env.addTok m.chptr tok := by
  unfold handle
  by_cases hlong : MODEBUFLEN < tok.length
  · rw [if_pos hlong, addTok, if_neg fun h => absurd h.1 (not_le.mpr hlong)]
  · rw [if_neg hlong]
    by_cases hhanded : tok ≠ [] ∧ tok.head? ≠ some ':'
    · have hH : Handed tok := ⟨not_lt.mp hlong, hhanded⟩
      rw [if_pos hhanded, addTok, if_pos hH]
      dsimp only
      split
      · exact (put_eq ..).2.2
      · rfl
    · rw [if_neg hhanded, addTok, if_neg fun h => hhanded h.2]

theorem handle_s {tok : CStr} (hshort : tok.length ≤ MODEBUFLEN) (m : Bmask) (s : Nat)
    (t : Option Nat) : (env.handle m s tok t).s = t := by
  unfold handle
  rw [if_neg (not_lt.mpr hshort)]
  split
  · dsimp only
    split
    · exact (put_eq ..).2.1
    · rfl
  · rfl

theorem handle_banbuf (m : Bmask) (s : Nat) (tok : CStr) (t : Option Nat) :
    (env.handle m s tok t).banbuf =
      if Handed tok then putStr m.banbuf s (addText env.cf env.source m.chptr tok)
      else m.banbuf := by
  unfold handle
  by_cases hlong : MODEBUFLEN < tok.length
  · rw [if_pos hlong, if_neg fun h => absurd h.1 (not_le.mpr hlong)]
  · rw [if_neg hlong]
    by_cases hhanded : tok ≠ [] ∧ tok.head? ≠ some ':'
    · have hH : Handed tok := ⟨not_lt.mp hlong, hhanded⟩
      rw [if_pos hhanded, if_pos hH, ← banid_addId env.now env.type]
      dsimp only
      split
      · exact (put_eq ..).1
      · rfl
    · rw [if_neg hhanded, if_neg fun h => hhanded h.2]

theorem intercalate_two (tok tok' : CStr) (rest : List CStr) :
    [' '].intercalate (tok :: tok' :: rest) = tok ++ ' ' :: [' '].intercalate (tok' :: rest) := by
  simp [List.intercalate]

theorem round_chptr {m : Bmask} {s : Nat} {tok : CStr} {rest : List CStr} (hs : m.s = some s)
    (htext : strAt m.banbuf s = [' '].intercalate (tok :: rest)) (hblank : ' ' ∉ tok) :
    (env.round m).chptr = env.addTok m.chptr tok := by
  unfold round
  cases rest with
  | nil =>
    have hone : strAt m.banbuf s = tok := by simpa [List.intercalate] using htext
    simp only [hs, hone, strchr_eq_none_iff.mpr hblank]
    exact handle_chptr ..
  | cons tok' rest =>
    rw [intercalate_two] at htext
    simp only [hs, htext, strchr_append hblank]
    exact handle_chptr ..

theorem round_more (env : BmaskEnv) {m : Bmask} {s : Nat} {tok rest : CStr} (hs : m.s = some s)
    (hle : s ≤ m.banbuf.length) (htext : strAt m.banbuf s = tok ++ ' ' :: rest)
    (hblank : ' ' ∉ tok) (hshort : tok.length ≤ MODEBUFLEN) :
    ∃ s', (env.round m).s = some s' ∧ s' ≤ (env.round m).banbuf.length ∧
      (env.round m).chptr = env.addTok m.chptr tok ∧
      strAt (env.round m).banbuf s' =
        if Handed tok ∧ tok.length < (addText env.cf env.source m.chptr tok).length then
          (addText env.cf env.source m.chptr tok).drop (tok.length + 1)
        else rest := by
  have hlen := add_length_strAt_le hle
  rw [htext, length_append, length_cons] at hlen
  have hround : env.round m =
      env.handle { m with banbuf := poke m.banbuf (s + tok.length) ['\x00'] } s tok
        (some (s + tok.length + 1)) := by
    unfold round
    simp only [hs, htext, strchr_append hblank]
  have hpoke : m.banbuf.length ≤ (poke m.banbuf (s + tok.length) ['\x00']).length :=
    length_le_poke (by omega)
  have hrest : strAt (poke m.banbuf (s + tok.length) ['\x00']) (s + tok.length + 1) = rest := by
    have hadd := strAt_add (b := m.banbuf) (p := s) (n := tok.length + 1) (by
      rw [htext, length_append, length_cons]
      omega)
    have hbehind : strAt (poke m.banbuf (s + tok.length) ['\x00']) (s + tok.length + 1) =
        strAt m.banbuf (s + tok.length + 1) := strAt_poke_behind (by omega) (by simp)
    rw [hbehind, Nat.add_assoc, hadd, htext, drop_length_add_append]
    rfl
  refine ⟨s + tok.length + 1, by rw [hround, handle_s hshort], ?_, by rw [hround, handle_chptr], ?_⟩
  · rw [hround, handle_banbuf]
    split
    · have hput := length_le_putStr (b := poke m.banbuf (s + tok.length) ['\x00']) (p := s)
        (t := addText env.cf env.source m.chptr tok) (by omega)
      dsimp only
      omega
    · dsimp only
      omega
  · rw [hround, handle_banbuf]
    by_cases hhanded : Handed tok
    · have hnul : '\x00' ∉ tok := by
        intro hmem
        have hin : '\x00' ∈ strAt m.banbuf s := by
          rw [htext]
          exact mem_append_left _ hmem
        exact ne_nul_of_mem_cstr hin rfl
      rw [if_pos hhanded, strAt_putStr (by dsimp only; omega) (by omega), cstr_addText hnul, hrest]
      simp only [hhanded, true_and]
      by_cases hover : tok.length < (addText env.cf env.source m.chptr tok).length
      · rw [if_pos hover, if_neg (by omega)]
        congr 1
        omega
      · rw [if_neg hover, if_pos (by omega)]
    · rw [if_neg hhanded, if_neg fun h => hhanded h.1]
      exact hrest

theorem left_iff_fits (env : BmaskEnv) {toks : List CStr} (hblank : ∀ tok ∈ toks, ' ' ∉ tok)
    {m : Bmask} {s : Nat}
    (hs : m.s = some s) (hle : s ≤ m.banbuf.length)
    (htext : strAt m.banbuf s = [' '].intercalate toks) :
    (∀ done rest, toks = done ++ rest → rest ≠ [] → (∀ tok ∈ done, tok.length ≤ MODEBUFLEN) →
        left (env.round^[done.length] m) = some ([' '].intercalate rest)) ↔
      env.Fits m.chptr toks := by
  induction toks generalizing m s with
  | nil =>
    refine iff_of_true (fun done rest h hrest => ?_) trivial
    exact absurd (List.append_eq_nil_iff.mp h.symm).2 hrest
  | cons tok toks ih =>
    have hnow : left m = some ([' '].intercalate (tok :: toks)) := by
      rw [left, hs, Option.map_some, htext]
    cases toks with
    | nil =>
      refine iff_of_true (fun done rest h hrest _ => ?_) fun _ => ⟨nofun, trivial⟩
      rcases List.cons_eq_append_iff.mp h with ⟨rfl, rfl⟩ | ⟨done', rfl, h'⟩
      · exact hnow
      · exact absurd (List.append_eq_nil_iff.mp h'.symm).2 hrest
    | cons tok' rest' =>
      rw [intercalate_two] at htext
      by_cases hshort : tok.length ≤ MODEBUFLEN
      · obtain ⟨s', hs', hle', hch, hread⟩ :=
          round_more env hs hle htext (hblank tok (by simp)) hshort
        have hnext : left (env.round m) = some (strAt (env.round m).banbuf s') := by
          rw [left, hs', Option.map_some]
        have hover : (Handed tok →
            (addText env.cf env.source m.chptr tok).length ≤ tok.length ∨
              (addText env.cf env.source m.chptr tok).drop (tok.length + 1) =
                [' '].intercalate (tok' :: rest')) ↔
            strAt (env.round m).banbuf s' = [' '].intercalate (tok' :: rest') := by
          rw [hread]
          by_cases hhanded : Handed tok
          · by_cases hlonger : tok.length < (addText env.cf env.source m.chptr tok).length
            · simp [hhanded, hlonger, not_le.mpr hlonger]
            · simp [hhanded, hlonger, not_lt.mp hlonger]
          · simp [hhanded]
        constructor
        · intro hall _
          have hone := hall [tok] (tok' :: rest') rfl (by simp) (by simpa using hshort)
          rw [length_singleton, Function.iterate_one, hnext] at hone
          have hsame := Option.some.inj hone
          refine ⟨fun _ => hover.mpr hsame, ?_⟩
          rw [← hch]
          refine (ih (fun t ht => hblank t (mem_cons_of_mem _ ht)) hs' hle' hsame).mp ?_
          intro done rest h hrest hdone
          have hmore := hall (tok :: done) rest (by rw [h]; rfl) hrest
            (List.forall_mem_cons.mpr ⟨hshort, hdone⟩)
          rwa [length_cons, Function.iterate_succ_apply] at hmore
        · intro hfits done rest h hrest hdone
          obtain ⟨hfit, htail⟩ := hfits hshort
          rcases List.cons_eq_append_iff.mp h with ⟨rfl, rfl⟩ | ⟨done', rfl, h'⟩
          · exact hnow
          · rw [← hch] at htail
            rw [length_cons, Function.iterate_succ_apply]
            exact (ih (fun t ht => hblank t (mem_cons_of_mem _ ht)) hs' hle'
              (hover.mp (hfit (by simp)))).mpr htail done' rest h' hrest
              fun t ht => hdone t (mem_cons_of_mem _ ht)
      · refine iff_of_true (fun done rest h hrest hdone => ?_) fun h => absurd h hshort
        rcases List.cons_eq_append_iff.mp h with ⟨rfl, rfl⟩ | ⟨done', rfl, h'⟩
        · exact hnow
        · exact absurd (hdone tok (by simp)) hshort

theorem handle_none (m : Bmask) (s : Nat) (tok : CStr) : (env.handle m s tok none).s = none := by
  by_cases hshort : tok.length ≤ MODEBUFLEN
  · exact handle_s hshort m s none
  · unfold handle
    rw [if_pos (not_le.mp hshort)]

theorem ends_of_count {k : Nat} {m : Bmask} {s : Nat} (hs : m.s = some s)
    (hle : s ≤ m.banbuf.length) (hcount : (strAt m.banbuf s).count ' ' ≤ k) :
    (env.round^[k + 1] m).s = none := by
  have hstays : ∀ (n : Nat) {m : Bmask}, m.s = none → (env.round^[n] m).s = none := by
    intro n m hm
    have hround : env.round m = m := by
      unfold round
      rw [hm]
    rw [Function.iterate_fixed hround, hm]
  induction k generalizing m s with
  | zero =>
    have hblank : ' ' ∉ strAt m.banbuf s := List.count_eq_zero.mp (Nat.le_zero.mp hcount)
    rw [Function.iterate_one]
    unfold round
    simp only [hs, strchr_eq_none_iff.mpr hblank]
    exact handle_none ..
  | succ k ih =>
    rw [Function.iterate_succ_apply]
    cases hcut : strchr ' ' (strAt m.banbuf s) with
    | none =>
      apply hstays _
      unfold round
      simp only [hs, hcut]
      exact handle_none ..
    | some parts =>
      obtain ⟨tok, rest⟩ := parts
      obtain ⟨htext, hblank⟩ := strchr_eq_some hcut
      by_cases hshort : tok.length ≤ MODEBUFLEN
      · obtain ⟨s', hs', hle', -, hread⟩ := round_more env hs hle htext hblank hshort
        apply ih hs' hle'
        rw [hread]
        rw [htext, count_append, count_cons_self] at hcount
        split
        · -- a mask that was brought into its parts has no blank
          have hnone : ' ' ∉ addText env.cf env.source m.chptr tok := by
            intro hmem
            simpa [hblank] using mem_addText hmem
          rw [List.count_eq_zero.mpr fun hmem => hnone (mem_of_mem_drop hmem)]
          exact Nat.zero_le k
        · omega
      · apply hstays _
        unfold round handle
        simp only [hs, hcut, if_pos (not_le.mp hshort)]

theorem after_ends (chptr : Channel) (masks : CStr) :
    (env.after chptr masks IRCD_BUFSIZE).s = none := by
  have hbuf : IRCD_BUFSIZE = 511 + 1 := rfl
  have htext : strAt (start chptr masks).banbuf 0 = cstr (strlcpy masks IRCD_BUFSIZE) :=
    strAt_putStr_within (Nat.zero_le _) le_rfl (Nat.zero_le _)
  have hlen : (strAt (start chptr masks).banbuf 0).length ≤ 511 := by
    rw [htext]
    apply length_cstr_le.trans
    rw [strlcpy, hbuf, length_take]
    exact Nat.min_le_left _ _
  unfold after
  rw [hbuf]
  exact ends_of_count (s := 0) rfl (Nat.zero_le _) (List.count_le_length.trans hlen)

theorem list_addTok (chptr : Channel) (tok : CStr) (type : BanType) :
    ∀ bp ∈ (env.addTok chptr tok).list type, bp ∈ chptr.list type ∨
      bp = newBan env.cf env.now env.source tok := by
  intro bp hbp
  unfold addTok at hbp
  split at hbp
  · rw [list_addId] at hbp
    split at hbp
    · exact (List.mem_cons.mp hbp).symm
    · exact .inl hbp
  · exact .inl hbp

theorem blank_notMem_tokens (masks : CStr) {tok : CStr} (h : tok ∈ tokens masks) : ' ' ∉ tok :=
  notMem_of_mem_splitOn h

theorem masksAsSent_iff (chptr : Channel) (masks : CStr) :
    env.MasksAsSent chptr masks ↔ env.Fits chptr (tokens masks) := by
  have htext : strAt (start chptr masks).banbuf 0 = [' '].intercalate (tokens masks) := by
    rw [tokens, intercalate_splitOn]
    exact strAt_putStr_within (Nat.zero_le _) le_rfl (Nat.zero_le _)
  have hleft := left_iff_fits env (fun tok htok => blank_notMem_tokens masks htok)
    (m := start chptr masks) rfl (Nat.zero_le _) htext
  constructor
  · exact fun h => hleft.mp h.intact
  · intro hfits
    have hintact := hleft.mpr hfits
    refine ⟨hintact, fun done tok rest h hdone type => ?_⟩
    have hnow : left (env.after chptr masks done.length) = some ([' '].intercalate (tok :: rest)) :=
      hintact done (tok :: rest) h (by simp) hdone
    obtain ⟨s, hs, hread⟩ := Option.map_eq_some_iff.mp hnow
    have hblank : ' ' ∉ tok := by
      apply blank_notMem_tokens masks
      rw [h]
      exact mem_append_right _ mem_cons_self
    have hround : (env.after chptr masks (done.length + 1)).chptr =
        env.addTok (env.after chptr masks done.length).chptr tok := by
      rw [after, Function.iterate_succ_apply']
      exact round_chptr hs hread hblank
    rw [hround]
    exact list_addTok _ tok type

end BmaskEnv

/-- When the parameters of a MODE and the masks of a BMASK are read as they were sent, and the
masks are stored so. -/
theorem masks_as_sent_iff (line : ModeLine) (env : ModeEnv) (bmask : BmaskEnv) (chptr : Channel)
    (modes masks : CStr) :
    (line.MasksAsSent env chptr modes ↔
        Run.Guarded (line.asSent.step (line.on env)) (line.Fits env) ((), { chptr := chptr })
          modes) ∧
      (bmask.MasksAsSent chptr masks ↔ bmask.Fits chptr (BmaskEnv.tokens masks)) :=
  ⟨line.masksAsSent_iff chptr modes, BmaskEnv.masksAsSent_iff chptr masks⟩

/-- `+bo a nick`, taken apart. -/
def banThenOp : ModeLine where
  bytes := "+bo\x00a\x00nick\x00".toList
  parc := 3
  offs i := [0, 4, 6].getD i 0
  apart i hi := by
    have hlt : i < 2 := by omega
    interval_cases i <;> decide
  inside i hi := by interval_cases i <;> decide

def banMask : BmaskEnv where
  cf := plainConfig
  now := 0
  source := { (default : Client) with status := .server, name := "hub.net".toList }
  letter := 'b'
  type := .ban
  modebuf := ":hub.net MODE #c +".toList

/-- The mask `a` runs over the nick behind it, which becomes `*@*`, and over the mask behind it
in a BMASK. -/
theorem mask_runs_over_nick :
    (banThenOp.token 2 = "nick".toList ∧
        strAt (banThenOp.run (ParamStore.opEnv 3) ParamStore.opRoom "+b".toList).1 6 =
          "*@*".toList ∧
        ¬banThenOp.MasksAsSent (ParamStore.opEnv 3) ParamStore.opRoom "+bo".toList) ∧
      BmaskEnv.tokens "a b".toList = ["a".toList, "b".toList] ∧
      BmaskEnv.left (banMask.after default "a b".toList 1) = some "*@*".toList ∧
      ¬banMask.MasksAsSent default "a b".toList := by
  have hnick : strAt (banThenOp.run (ParamStore.opEnv 3) ParamStore.opRoom "+b".toList).1 6 =
      "*@*".toList := by decide +kernel
  have hmask : BmaskEnv.left (banMask.after default "a b".toList 1) = some "*@*".toList := by
    decide +kernel
  have htokens : BmaskEnv.tokens "a b".toList = ["a".toList, "b".toList] := by decide +kernel
  refine ⟨⟨by decide +kernel, hnick, fun h => ?_⟩, htokens, hmask, fun h => ?_⟩
  · have hread := h.intact "+b".toList ⟨"o".toList, rfl⟩ 2 (by decide +kernel) (by decide)
    exact absurd (hnick.symm.trans hread) (by decide +kernel)
  · have hread := h.intact ["a".toList] ["b".toList] htokens (by simp)
      (List.forall_mem_singleton.mpr (by decide))
    exact absurd (hmask.symm.trans hread) (by decide)

end Ircd
