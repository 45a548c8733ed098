import Ircd.MaskBuffer

/-!
The assertions of `set_channel_mode` and its handlers, and the keys that are stored.

The switches over the direction and over the list of a mask never come to their
`default`, and the membership that is passed is that of the source. The assertion on a
key can fail, and a stored key can have blanks and control characters: `fix_key_old`, for
a source that is not local, leaves them in a parameter behind a colon, and `fix_key`
leaves DEL. `mode_asserts_hold_iff` says for which keys nothing of this happens.
-/

namespace Ircd

open List

/-- The assertions. -/
inductive ModeAssert where
  | member
  | listType
  | dir
  | key
  deriving DecidableEq, Repr

/-- `CHFL_BAN`, `CHFL_EXCEPTION` and `CHFL_INVEX`. -/
def BanType.chfl : BanType → Nat
  | .ban => 0x0010
  | .exception => 0x0020
  | .invex => 0x0040

/-- The cases of the `switch (type)`. -/
def banTypeOf (type : Nat) : Option BanType :=
  [BanType.ban, .exception, .invex].find? fun t => t.chfl == type

/-- `get_channel_access` asserts that the membership is that of the source. -/
def accessTrips (cl : Clients) (source : Cid) (member : Option Membership) : Option ModeAssert :=
  if !(cl source).myClient then none
  else
    match member with
    | none => none
    | some member => if source = member.client then none else some .member

namespace ModeState

variable (env : ModeEnv) (st : ModeState)

/-- `add_id`. -/
def addIdTrips (type : Nat) : Option ModeAssert :=
  if env.mine ∧ env.cf.channel.maxBans ≤ st.chptr.numMask then none
  else if (banTypeOf type).isNone then some .listType
  else none

/-- The mask functions from the parameter on. -/
def maskTrips (type : Nat) (mask : CStr) : Option ModeAssert :=
  if (env.dir.clients env.client).isServer ∧ ' ' ∈ mask then none
  else
    match st.dir with
    | .add => st.addIdTrips env type
    | .del => none
    | .query => some .dir

/-- Behind the count of changes with a parameter. -/
def limitedTrips (next : Option ModeAssert) : Option ModeAssert :=
  if env.mine ∧ MAXMODEPARAMS < st.modeLimit + 1 then none else next

/-- `chm_ban`. -/
def chmBanTrips (arg : Option CStr) : Option ModeAssert :=
  match if st.dir = .query then none else arg with
  | none => none
  | some mask =>
    if env.alev.level < ChAccess.halfop.level then none
    else st.limitedTrips env (st.maskTrips env BanType.ban.chfl mask)

/-- `chm_except` and `chm_invex`. -/
def chmListedTrips (type : BanType) (enabled : Bool) (arg : Option CStr) : Option ModeAssert :=
  if !enabled ∧ env.mine ∧ st.dir = .add ∧ arg.isSome then none
  else if env.alev.level < ChAccess.halfop.level then none
  else
    match if st.dir = .query then none else arg with
    | none => none
    | some mask => st.limitedTrips env (st.maskTrips env type.chfl mask)

/-- `chm_key`. -/
def chmKeyTrips (arg : Option CStr) : Option ModeAssert :=
  if env.alev.level < ChAccess.halfop.level then none
  else
    match st.dir, arg with
    | .add, some arg =>
      let key := if env.mine then fixKey arg else fixKeyOld arg
      if key.head? = some ' ' then some .key else none
    | _, _ => none

/-- The assertion that fails at a character of the mode string. -/
def stepTrips (arg : Option CStr) (c : Char) : Option ModeAssert :=
  match c with
  | 'I' => st.chmListedTrips env .invex env.cf.channel.useInvex arg
  | 'b' => st.chmBanTrips env arg
  | 'e' => st.chmListedTrips env .exception env.cf.channel.useExcept arg
  | 'k' => st.chmKeyTrips env arg
  | _ => none

end ModeState

/-! ### The line -/

/-- What `m_mode` or `ms_tmode` passes on: the membership, and the parameters from the
mode string on. -/
structure ModeCall where
  member : Option Membership
  parv : List CStr
  deriving DecidableEq

/-- The end of both: a server is passed on without a membership, and who was deopped is
not passed on. -/
def modeCall (cl : Clients) (source : Cid) (chptr : Channel) (parv : List CStr) :
    Option ModeCall :=
  if (cl source).isServer then some ⟨none, parv⟩
  else
    match findChannelLink cl source chptr with
    | none => some ⟨none, parv⟩
    | some member => if .deopped ∈ member.flags then none else some ⟨some member, parv⟩

/-- `m_mode` on a channel, with the parameters behind the command. -/
def mMode (cl : Clients) (source : Cid) (chptr : Channel) : List CStr → Option ModeCall
  | _ :: modes :: parv => modeCall cl source chptr (modes :: parv)
  | _ => none

/-- `ms_tmode`. -/
def msTmode (cl : Clients) (source : Cid) (chptr : Channel) : List CStr → Option ModeCall
  | ts :: _ :: modes :: parv =>
    if chptr.channelts < strtol ts then none else modeCall cl source chptr (modes :: parv)
  | _ => none

/-- The parameters of a line where `string_to_array` left them. -/
structure TokenLine (σ : Type) (parv : List CStr) extends ParamStore σ where
  line : σ
  split : ∀ i < parv.length, read line i = parv.getD i []

/-- Parameters that are texts of their own. -/
def textLine (parv : List CStr) : TokenLine (List CStr) parv where
  toParamStore := textStore
  line := parv
  split _ _ := rfl

def ModeLine.splitLine (line : ModeLine) :
    TokenLine (List Char) ((List.range line.parc).map line.token) where
  toParamStore := line.store
  line := line.bytes
  split i hi := by
    rw [length_map, length_range] at hi
    rw [getD_eq_getElem?_getD, getElem?_map, getElem?_range hi]
    rfl

/-- What does not change while the line is read. -/
def ModeCall.env (call : ModeCall) (cf : Config) (now : Int) (dir : Directory)
    (client source : Cid) : ModeEnv where
  cf := cf
  now := now
  dir := dir
  client := client
  source := source
  alev := getChannelAccess (dir.clients source) call.member
  parc := call.parv.length

/-! ### Keys -/

/-- `iscntrl`. -/
def isCntrl (c : Char) : Bool := c.toNat < 32 || c.toNat == 127

/-- What a key in a channel should be. -/
structure KeyOk (key : CStr) : Prop where
  ne_nil : key ≠ []
  fits : key.length < KEYLEN
  clean : ∀ c ∈ key, c ≠ ' ' ∧ c ≠ ',' ∧ c ≠ ':' ∧ isCntrl c = false

def AnnouncesKey (st st' : ModeState) : Prop :=
  ∃ changes change, st'.modeChanges = changes ++ [change] ∧
    changes.length = st.modeChanges.length ∧ change.arg = .key

/-- No assertion fails at the letter, it announces only a right key, and without that it
stores none. -/
structure SafeLetter (env : ModeEnv) (st : ModeState) (arg : Option CStr) (c : Char)
    (st' : ModeState) : Prop where
  holds : st.stepTrips env arg c = none
  announced : AnnouncesKey st st' → KeyOk st'.chptr.mode.key
  kept : ¬AnnouncesKey st st' →
    st'.chptr.mode.key = st.chptr.mode.key ∨ st'.chptr.mode.key = []

/-- Characters that the filter of the source takes out of a key. -/
def dropsFromKey (mine : Bool) (c : Char) : Bool :=
  let low := c.toNat % 128
  if mine then low == 58 || low ≤ 32 || low == 44
  else low == 10 || low == 58 || low == 13 || low == 44

/-- The characters of a parameter that come into the key. -/
def keyChars (mine : Bool) (arg : CStr) : CStr :=
  ((arg.filter fun c => !dropsFromKey mine c).takeWhile fun c => c.toNat % 128 != 0).take
    (KEYLEN - 1)

/-- None of them is a blank or a control character, with or without its high bit. -/
def CleanKey (mine : Bool) (arg : CStr) : Prop :=
  ∀ c ∈ keyChars mine arg, 32 < c.toNat % 128 ∧ c.toNat % 128 ≠ 127

instance (mine : Bool) (arg : CStr) : Decidable (CleanKey mine arg) :=
  List.decidableBAll (fun c : Char => 32 < c.toNat % 128 ∧ c.toNat % 128 ≠ 127) (keyChars mine arg)

/-- A `+k` with the access for it has a clean parameter. -/
def CleanStep {σ : Type} (P : ParamStore σ) (env : ModeEnv) (s : σ × ModeState) (c : Char) :
    Prop :=
  c = 'k' → s.2.dir = .add → ChAccess.halfop.level ≤ env.alev.level →
    ∀ arg, P.next env s = some arg → CleanKey env.mine arg

/-! ### What comes into a key -/

section

variable {c d : Char} {mine : Bool} {arg : CStr}

theorem toNat_low (c : Char) : (Char.ofNat (c.toNat % 128)).toNat = c.toNat % 128 :=
  toNat_ofNat (.inl (by omega))

theorem low_eq_iff : Char.ofNat (c.toNat % 128) = d ↔ c.toNat % 128 = d.toNat := by
  have hlow := toNat_low c
  generalize Char.ofNat (c.toNat % 128) = low at hlow ⊢
  rw [← hlow]
  exact ⟨congrArg Char.toNat, Char.toNat_inj.mp⟩

theorem mem_keyChars (h : c ∈ keyChars mine arg) : dropsFromKey mine c = false := by
  have hmem := (takeWhile_sublist _).subset (mem_of_mem_take h)
  simpa using (List.mem_filter.mp hmem).2

theorem fixKey_eq (arg : CStr) : fixKey arg =
    (arg.filter fun c => !dropsFromKey true c).map fun c => Char.ofNat (c.toNat % 128) := by
  unfold fixKey
  rw [filter_map]
  congr 1
  apply filter_congr
  intro c _
  have hcolon : (Char.ofNat (c.toNat % 128) == ':') = (c.toNat % 128 == 58) := by
    rw [Bool.eq_iff_iff, beq_iff_eq, beq_iff_eq]
    exact low_eq_iff
  have hcomma : (Char.ofNat (c.toNat % 128) == ',') = (c.toNat % 128 == 44) := by
    rw [Bool.eq_iff_iff, beq_iff_eq, beq_iff_eq]
    exact low_eq_iff
  have hblank : decide (' ' < Char.ofNat (c.toNat % 128)) = !decide (c.toNat % 128 ≤ 32) := by
    rw [← decide_not, decide_eq_decide, not_le]
    have hlow := toNat_low c
    generalize Char.ofNat (c.toNat % 128) = low at hlow ⊢
    rw [← hlow]
    exact Iff.rfl
  simp only [Function.comp_apply, dropsFromKey, bne, hcolon, hcomma, hblank, if_true,
    Bool.not_or]

theorem fixKeyOld_eq (arg : CStr) : fixKeyOld arg =
    ((arg.filter fun c => !dropsFromKey false c).takeWhile fun c => c.toNat % 128 != 0).map
      fun c => Char.ofNat (c.toNat % 128) := by
  unfold fixKeyOld
  have hlow : ∀ (c d : Char), (Char.ofNat (c.toNat % 128) == d) = (c.toNat % 128 == d.toNat) := by
    intro c d
    rw [Bool.eq_iff_iff, beq_iff_eq, beq_iff_eq]
    exact low_eq_iff
  rw [filter_map, takeWhile_map]
  congr 1
  have hfilter : arg.filter ((fun c => c != '\n' && c != ':' && c != '\r' && c != ',') ∘
      fun c => Char.ofNat (c.toNat % 128)) = arg.filter fun c => !dropsFromKey false c := by
    apply filter_congr
    intro c _
    simp only [Function.comp_apply, bne, hlow, dropsFromKey, Bool.false_eq_true, if_false,
      Bool.not_or]
    rfl
  rw [hfilter]
  congr 1
  funext c
  simp only [Function.comp_apply, ne_eq, low_eq_iff, bne]
  rw [Bool.eq_iff_iff]
  simp

theorem strlcpy_key (mine : Bool) (arg : CStr) :
    strlcpy (if mine then fixKey arg else fixKeyOld arg) KEYLEN =
      (keyChars mine arg).map fun c => Char.ofNat (c.toNat % 128) := by
  unfold strlcpy keyChars
  rw [map_take]
  congr 1
  cases mine with
  | false => exact fixKeyOld_eq arg
  | true =>
    rw [if_pos rfl, fixKey_eq, List.takeWhile_eq_self_iff.mpr]
    intro c hc
    have hkept := (List.mem_filter.mp hc).2
    simp only [dropsFromKey, if_true, Bool.not_eq_true', Bool.or_eq_false_iff,
      decide_eq_false_iff_not] at hkept
    simp only [bne_iff_ne, ne_eq]
    omega

theorem keyOk_iff (hne : (if mine then fixKey arg else fixKeyOld arg) ≠ []) :
    KeyOk (strlcpy (if mine then fixKey arg else fixKeyOld arg) KEYLEN) ↔ CleanKey mine arg := by
  have hpoint : ∀ c ∈ keyChars mine arg,
      (Char.ofNat (c.toNat % 128) ≠ ' ' ∧ Char.ofNat (c.toNat % 128) ≠ ',' ∧
        Char.ofNat (c.toNat % 128) ≠ ':' ∧ isCntrl (Char.ofNat (c.toNat % 128)) = false) ↔
      32 < c.toNat % 128 ∧ c.toNat % 128 ≠ 127 := by
    intro c hc
    have hdrops := mem_keyChars hc
    have hcomma : c.toNat % 128 ≠ 44 := by
      intro h
      cases mine <;> simp [dropsFromKey, h] at hdrops
    have hcolon : c.toNat % 128 ≠ 58 := by
      intro h
      cases mine <;> simp [dropsFromKey, h] at hdrops
    simp only [ne_eq, low_eq_iff, isCntrl, toNat_low, Bool.or_eq_false_iff,
      decide_eq_false_iff_not, beq_eq_false_iff_ne]
    have hb : ' '.toNat = 32 := rfl
    have hc : ','.toNat = 44 := rfl
    have hd : ':'.toNat = 58 := rfl
    omega
  constructor
  · intro hok c hc
    refine (hpoint c hc).mp (hok.clean _ ?_)
    rw [strlcpy_key]
    exact mem_map_of_mem hc
  · intro hclean
    refine ⟨?_, ?_, ?_⟩
    · obtain ⟨c, s, hs⟩ := exists_cons_of_ne_nil hne
      rw [hs]
      exact cons_ne_nil _ _
    · rw [strlcpy, length_take]
      exact lt_of_le_of_lt (min_le_left _ _) (by decide)
    · rw [strlcpy_key]
      intro d hd
      obtain ⟨c, hc, rfl⟩ := List.mem_map.mp hd
      exact (hpoint c hc).mpr (hclean c hc)

theorem CleanKey.head_ne (h : CleanKey mine arg) :
    (if mine then fixKey arg else fixKeyOld arg).head? ≠ some ' ' := by
  intro hhead
  have hne : (if mine then fixKey arg else fixKeyOld arg) ≠ [] := by
    intro hnil
    rw [hnil] at hhead
    cases hhead
  obtain ⟨s, hs⟩ : ∃ s, (if mine then fixKey arg else fixKeyOld arg) = ' ' :: s := by
    obtain ⟨c, s, hs⟩ := exists_cons_of_ne_nil hne
    rw [hs] at hhead
    exact ⟨s, by rw [hs, Option.some.inj hhead]⟩
  have hok := (keyOk_iff hne).mpr h
  rw [hs] at hok
  exact (hok.clean ' ' mem_cons_self).1 rfl

end

/-! ### The other letters -/

namespace ModeState

variable {env : ModeEnv} {st st' : ModeState} {arg : Option CStr} {c : Char}

/-- The key is left, and not announced. -/
structure Keyless (st st' : ModeState) : Prop where
  key : st'.chptr.mode.key = st.chptr.mode.key
  silent : ¬AnnouncesKey st st'

theorem not_announces_of_same (h : st'.modeChanges = st.modeChanges) : ¬AnnouncesKey st st' := by
  rintro ⟨changes, change, hchanges, hlen, -⟩
  rw [h] at hchanges
  have hshort := congrArg List.length hchanges
  rw [length_append, length_singleton] at hshort
  omega

theorem not_announces_of_push {changes : List ModeChange} {change : ModeChange}
    (h : st'.modeChanges = changes ++ [change]) (harg : change.arg ≠ .key) :
    ¬AnnouncesKey st st' := by
  rintro ⟨changes', change', hchanges, -, hkey⟩
  rw [h] at hchanges
  obtain ⟨-, hlast⟩ := append_inj' hchanges rfl
  obtain rfl : change = change' := by simpa using hlast
  exact harg hkey

theorem Keyless.refl (st : ModeState) : Keyless st st := ⟨rfl, not_announces_of_same rfl⟩

theorem keyless_of_push {change : ModeChange} (hkey : st'.chptr.mode.key = st.chptr.mode.key)
    {changes : List ModeChange} (h : st'.modeChanges = changes ++ [change])
    (harg : change.arg ≠ .key) : Keyless st st' :=
  ⟨hkey, not_announces_of_push h harg⟩

theorem keyless_answer (err : SmErr) (reply : List ModeReply) :
    Keyless st (st.answer err reply) := by
  unfold answer
  split <;> exact ⟨rfl, not_announces_of_same rfl⟩

theorem keyless_refuse : Keyless st (st.refuse env) := keyless_answer ..

theorem keyless_limited {next : ModeState → ModeState}
    (hnext : ∀ limit, Keyless { st with modeLimit := limit }
      (next { st with modeLimit := limit })) : Keyless st (st.limited env next) := by
  unfold limited
  split
  · dsimp only
    split
    · exact ⟨rfl, not_announces_of_same rfl⟩
    · exact ⟨(hnext _).key, (hnext _).silent⟩
  · exact hnext st.modeLimit

theorem key_addId (cf : Config) (now : Int) (client : Client) (chptr : Channel) (banid : CStr)
    (type : BanType) :
    (addId cf now client chptr banid type).chptr.mode.key = chptr.mode.key := by
  unfold addId
  split
  · rfl
  · dsimp only
    split <;> cases type <;> rfl

theorem key_delId (cf : Config) (chptr : Channel) (banid : CStr) (type : BanType) :
    (delId cf chptr banid type).chptr.mode.key = chptr.mode.key := by
  cases type <;> rfl

variable (st) in
theorem keyless_setMask (type : BanType) (caps : Nat) (mems : Mems) (mask : CStr) :
    Keyless st (st.setMask env type caps mems c mask) := by
  unfold setMask
  dsimp only
  split
  · exact ⟨rfl, not_announces_of_same rfl⟩
  · split
    · split
      · exact keyless_of_push (key_addId ..) rfl (by simp)
      · exact ⟨key_addId .., not_announces_of_same rfl⟩
    · split
      · exact keyless_of_push (key_delId ..) rfl (by simp)
      · exact ⟨key_delId .., not_announces_of_same rfl⟩
    · exact keyless_of_push rfl rfl (by simp)

theorem keyless_chmBan : Keyless st (st.chmBan env arg c) := by
  unfold chmBan
  split
  · exact keyless_answer ..
  · split
    · exact keyless_refuse
    · exact keyless_limited fun limit => keyless_setMask { st with modeLimit := limit } ..

theorem keyless_chmListed (type : BanType) (enabled : Bool) (err : SmErr) (caps : Nat) :
    Keyless st (st.chmListed env type enabled err caps arg c) := by
  unfold chmListed
  split
  · exact keyless_answer ..
  · split
    · exact keyless_refuse
    · split
      · exact keyless_answer ..
      · exact keyless_limited fun limit => keyless_setMask { st with modeLimit := limit } ..

theorem keyless_chmStatus (need : ChAccess) (flag : ChFlag) (undeop : Finset ChFlag) :
    Keyless st (st.chmStatus env need flag undeop arg c) := by
  have hsame : ∀ {st' : ModeState}, Keyless { st with parn := st.parn + 1 } st' →
      Keyless st st' := fun h => ⟨h.key, h.silent⟩
  unfold chmStatus
  split
  · exact keyless_refuse
  · split
    · exact .refl st
    · dsimp only
      split
      · exact hsame (.refl _)
      · split
        · exact hsame (.refl _)
        · split
          · exact hsame (keyless_answer ..)
          · apply hsame
            apply keyless_limited
            intro limit
            split
            · exact ⟨rfl, not_announces_of_same rfl⟩
            · exact keyless_of_push rfl rfl (by simp)

theorem keyless_chmLimit : Keyless st (st.chmLimit env arg c) := by
  unfold chmLimit
  split
  · exact keyless_refuse
  · split
    · dsimp only
      split
      · exact ⟨rfl, not_announces_of_same rfl⟩
      · exact keyless_of_push rfl rfl (by simp)
    · split
      · exact .refl st
      · exact keyless_of_push rfl rfl (by simp)
    · exact .refl st

theorem keyless_chmSimple (mode : SimpleMode) : Keyless st (st.chmSimple env mode c) := by
  unfold chmSimple
  split
  · exact keyless_refuse
  · split
    · exact .refl st
    · dsimp only
      split
      · exact keyless_of_push rfl rfl (by simp)
      · exact keyless_of_push rfl rfl (by simp)
      · exact ⟨rfl, not_announces_of_same rfl⟩

theorem keyless_chmLetter (hc : c ≠ 'k') : Keyless st (st.chmLetter env arg c) := by
  unfold chmLetter
  split
  · exact keyless_chmListed ..
  · exact keyless_chmBan
  · exact keyless_chmListed ..
  · exact keyless_chmStatus ..
  · exact absurd rfl hc
  · exact keyless_chmLimit
  · exact keyless_chmStatus ..
  · exact keyless_chmStatus ..
  · split
    · exact keyless_chmSimple _
    · exact keyless_answer ..

/-! ### The assertions that hold -/

theorem addIdTrips_eq (type : BanType) : st.addIdTrips env type.chfl = none := by
  unfold addIdTrips
  split
  · rfl
  · cases type <;> rfl

theorem maskTrips_eq (hdir : st.dir ≠ .query) (type : BanType) (mask : CStr) :
    st.maskTrips env type.chfl mask = none := by
  unfold maskTrips
  split
  · rfl
  · split
    · exact addIdTrips_eq type
    · rfl
    · exact absurd ‹_› hdir

theorem limitedTrips_eq : st.limitedTrips env none = none := ite_self _

theorem stepTrips_of_ne (hc : c ≠ 'k') : st.stepTrips env arg c = none := by
  have hlisted : ∀ type enabled, st.chmListedTrips env type enabled arg = none := by
    intro type enabled
    unfold chmListedTrips
    split
    · rfl
    · split
      · rfl
      · by_cases hdir : st.dir = .query
        · simp only [hdir, if_true]
        · cases arg with
          | none => simp only [hdir, if_false]
          | some mask => simp only [hdir, if_false, maskTrips_eq hdir, limitedTrips_eq]
  unfold stepTrips
  split
  · exact hlisted ..
  · unfold chmBanTrips
    by_cases hdir : st.dir = .query
    · simp only [hdir, if_true]
    · cases arg with
      | none => simp only [hdir, if_false]
      | some mask =>
        simp only [hdir, if_false, maskTrips_eq hdir, limitedTrips_eq]
        exact ite_self _
  · exact hlisted ..
  · exact absurd rfl hc
  · rfl

/-! ### The letter `k` -/

theorem chmKey_add {word : CStr} (hlevel : ChAccess.halfop.level ≤ env.alev.level)
    (hdir : st.dir = .add) (hne : (if env.mine then fixKey word else fixKeyOld word) ≠ []) :
    (st.chmKey env (some word) c).chptr.mode.key =
        strlcpy (if env.mine then fixKey word else fixKeyOld word) KEYLEN ∧
      AnnouncesKey st (st.chmKey env (some word) c) := by
  unfold chmKey
  rw [if_neg (not_lt.mpr hlevel), hdir]
  dsimp only
  rw [if_neg hne]
  exact ⟨rfl, _, _, rfl, length_map _, rfl⟩

theorem chmKey_empty {word : CStr} (hdir : st.dir = .add)
    (hempty : (if env.mine then fixKey word else fixKeyOld word) = []) :
    Keyless st (st.chmKey env (some word) c) := by
  unfold chmKey
  split
  · exact keyless_refuse
  · rw [hdir]
    dsimp only
    rw [if_pos hempty]
    exact ⟨rfl, not_announces_of_same rfl⟩

theorem chmKey_of_ne (h : st.dir = .add → arg = none) :
    ¬AnnouncesKey st (st.chmKey env arg c) ∧
      ((st.chmKey env arg c).chptr.mode.key = st.chptr.mode.key ∨
        (st.chmKey env arg c).chptr.mode.key = []) := by
  have hsame : ∀ {st' : ModeState}, Keyless st st' →
      ¬AnnouncesKey st st' ∧ (st'.chptr.mode.key = st.chptr.mode.key ∨ st'.chptr.mode.key = []) :=
    fun h => ⟨h.silent, .inl h.key⟩
  have hdel : ∀ st' : ModeState, st'.chptr = st.chptr → st'.modeChanges = st.modeChanges →
      ∀ st'', st'' = (if st'.chptr.mode.key = [] then st'
        else ({ st' with chptr := { st'.chptr with mode := { st'.chptr.mode with key := [] } } } :
          ModeState).push { letter := c, dir := .del, arg := .text ['*'] }) →
      ¬AnnouncesKey st st'' ∧
        (st''.chptr.mode.key = st.chptr.mode.key ∨ st''.chptr.mode.key = []) := by
    rintro st' hchptr hchanges st'' rfl
    split
    · exact ⟨not_announces_of_same hchanges, .inl (congrArg (·.mode.key) hchptr)⟩
    · exact ⟨not_announces_of_push rfl (by simp), .inr rfl⟩
  unfold chmKey
  split
  · exact hsame keyless_refuse
  · split
    · rename_i hdir
      exact absurd (h hdir) (by simp)
    · rename_i param _ _ _
      cases param with
      | none => exact hdel st rfl rfl _ rfl
      | some key => exact hdel { st with parn := st.parn + 1 } rfl rfl _ rfl
    · exact hsame (.refl st)

theorem safeLetter_key_iff : SafeLetter env st arg 'k' (st.chmKey env arg 'k') ↔
    (st.dir = .add → ChAccess.halfop.level ≤ env.alev.level → ∀ word, arg = some word →
      CleanKey env.mine word) := by
  have htrips : st.stepTrips env arg 'k' = st.chmKeyTrips env arg := rfl
  by_cases hadd : st.dir = .add ∧ arg.isSome
  · obtain ⟨hdir, harg⟩ := hadd
    obtain ⟨word, rfl⟩ := Option.isSome_iff_exists.mp harg
    simp only [hdir, Option.some.injEq, forall_eq', true_imp_iff]
    by_cases hlow : env.alev.level < ChAccess.halfop.level
    · have hkeyless : Keyless st (st.chmKey env (some word) 'k') := by
        unfold chmKey
        rw [if_pos hlow]
        exact keyless_refuse
      refine iff_of_true ⟨?_, fun h => absurd h hkeyless.silent, fun _ => .inl hkeyless.key⟩
        fun h => absurd hlow (not_lt.mpr h)
      rw [htrips]
      unfold chmKeyTrips
      exact if_pos hlow
    · have hlevel := not_lt.mp hlow
      have hkey : st.chmKeyTrips env (some word) =
          if (if env.mine then fixKey word else fixKeyOld word).head? = some ' ' then
            some .key else none := by
        unfold chmKeyTrips
        rw [if_neg hlow, hdir]
      by_cases hempty : (if env.mine then fixKey word else fixKeyOld word) = []
      · have hkeyless : Keyless st (st.chmKey env (some word) 'k') := chmKey_empty hdir hempty
        refine iff_of_true ⟨?_, fun h => absurd h hkeyless.silent, fun _ => .inl hkeyless.key⟩
          fun _ => ?_
        · rw [htrips, hkey, hempty]
          rfl
        · have hnone := strlcpy_key env.mine word
          rw [hempty] at hnone
          have hchars : keyChars env.mine word = [] := List.map_eq_nil_iff.mp hnone.symm
          unfold CleanKey
          rw [hchars]
          exact fun _ h => absurd h not_mem_nil
      · obtain ⟨hstored, hannounces⟩ := chmKey_add (c := 'k') hlevel hdir hempty
        constructor
        · intro hsafe _
          have hok := hsafe.announced hannounces
          rw [hstored] at hok
          exact (keyOk_iff hempty).mp hok
        · intro hclean
          refine ⟨?_, fun _ => ?_, fun h => absurd hannounces h⟩
          · rw [htrips, hkey, if_neg (hclean hlevel).head_ne]
          · rw [hstored]
            exact (keyOk_iff hempty).mpr (hclean hlevel)
  · have hnot : st.dir = .add → arg = none := by
      intro hdir
      cases arg with
      | none => rfl
      | some word => exact absurd ⟨hdir, rfl⟩ hadd
    have hkeyless : ¬AnnouncesKey st (st.chmKey env arg 'k') ∧ _ := chmKey_of_ne hnot
    obtain ⟨hsilent, hkept⟩ := hkeyless
    refine iff_of_true ⟨?_, fun h => absurd h hsilent, fun _ => hkept⟩ ?_
    · rw [htrips]
      unfold chmKeyTrips
      split
      · rfl
      · split
        · rename_i hdir
          exact absurd (hnot hdir) (by simp)
        · rfl
    · intro hdir _ word hword
      rw [hnot hdir] at hword
      cases hword

end ModeState

/-! ### A whole line -/

namespace ParamStore

variable {σ : Type} (P : ParamStore σ) (env : ModeEnv)

theorem safeLetter_step_iff (s : σ × ModeState) (c : Char) :
    SafeLetter env s.2 (P.next env s) c (P.step env s c).2 ↔ CleanStep P env s c := by
  have hback : ∀ st', SafeLetter env { s.2 with back := none } (P.next env s) c st' ↔
      SafeLetter env s.2 (P.next env s) c st' := fun _ =>
    ⟨fun h => ⟨h.holds, h.announced, h.kept⟩, fun h => ⟨h.holds, h.announced, h.kept⟩⟩
  by_cases hc : c = 'k'
  · subst hc
    have hstep : (P.step env s 'k').2 =
        ({ s.2 with back := none } : ModeState).chmKey env (P.next env s) 'k' := rfl
    rw [hstep, ← hback, ModeState.safeLetter_key_iff]
    exact ⟨fun h _ => h, fun h => h rfl⟩
  · have hkeyless : ModeState.Keyless s.2 (P.step env s c).2 := by
      unfold step ModeState.modeStep
      dsimp only
      split
      · exact ⟨rfl, ModeState.not_announces_of_same rfl⟩
      · have hletter : ModeState.Keyless { s.2 with back := none }
            (({ s.2 with back := none } : ModeState).chmLetter env (P.next env s) c) :=
          ModeState.keyless_chmLetter hc
        exact ⟨hletter.key, hletter.silent⟩
    exact iff_of_true ⟨ModeState.stepTrips_of_ne hc, fun h => absurd h hkeyless.silent,
      fun _ => .inl hkeyless.key⟩ fun h => absurd h hc

end ParamStore

/-- No assertion fails in the line, and every key it stores is right and announced. -/
def ModeCall.Safe {σ : Type} (call : ModeCall) (L : TokenLine σ call.parv) (env : ModeEnv)
    (chptr : Channel) : Prop :=
  accessTrips env.dir.clients env.source call.member = none ∧
    ∀ done c, done ++ [c] <+: call.parv.headD [] →
      SafeLetter env (L.setChannelMode env chptr L.line done).2
        (L.next env (L.setChannelMode env chptr L.line done)) c
        (L.setChannelMode env chptr L.line (done ++ [c])).2

section

variable {cl : Clients} {source : Cid} {chptr : Channel} {parv : List CStr} {call : ModeCall}

theorem accessTrips_modeCall (h : modeCall cl source chptr parv = some call) :
    accessTrips cl source call.member = none := by
  have hnone : accessTrips cl source none = none := ite_self _
  unfold modeCall at h
  split at h
  · cases h
    exact hnone
  · split at h
    · cases h
      exact hnone
    · rename_i member hmember
      split at h
      · cases h
      · cases h
        unfold findChannelLink at hmember
        split at hmember
        · have hclient : (member.client == source) = true :=
            find?_some (p := fun ms : Membership => ms.client == source) hmember
          have heq : source = member.client := (beq_iff_eq.mp hclient).symm
          unfold accessTrips
          split
          · rfl
          · exact if_pos heq
        · cases hmember

theorem accessTrips_mMode (h : mMode cl source chptr parv = some call) :
    accessTrips cl source call.member = none := by
  unfold mMode at h
  split at h
  · exact accessTrips_modeCall h
  · cases h

theorem accessTrips_msTmode (h : msTmode cl source chptr parv = some call) :
    accessTrips cl source call.member = none := by
  unfold msTmode at h
  split at h
  · split at h
    · cases h
    · exact accessTrips_modeCall h
  · cases h

end

/-- When a MODE or TMODE line, of whatever source, trips no assertion and stores only right
keys. -/
theorem mode_asserts_hold_iff {σ : Type} (cf : Config) (now : Int) (dir : Directory)
    (client source : Cid) (chptr : Channel) (text : CStr) (call : ModeCall)
    (L : TokenLine σ call.parv)
    (hcall : mMode dir.clients source chptr (stringToArray text) = some call ∨
      msTmode dir.clients source chptr (stringToArray text) = some call) :
    call.Safe L (call.env cf now dir client source) chptr ↔
      Run.Guarded (L.step (call.env cf now dir client source))
        (CleanStep L.toParamStore (call.env cf now dir client source))
        (L.line, { chptr := chptr }) (call.parv.headD []) := by
  have haccess : accessTrips dir.clients source call.member = none := by
    rcases hcall with h | h
    · exact accessTrips_mMode h
    · exact accessTrips_msTmode h
  have hstep : ∀ s c, True → (SafeLetter (call.env cf now dir client source) s.2
      (L.next (call.env cf now dir client source) s) c
      (L.step (call.env cf now dir client source) s c).2 ↔
        CleanStep L.toParamStore (call.env cf now dir client source) s c) :=
    fun s c _ => L.safeLetter_step_iff _ s c
  exact (and_iff_right haccess).trans (Run.steps_iff_guarded
    (fun s c s' => SafeLetter (call.env cf now dir client source) s.2
      (L.next (call.env cf now dir client source) s) c s'.2)
    (fun _ _ _ _ => trivial) hstep trivial)

def serverDir : Directory :=
  ⟨fun _ => { (default : Client) with status := .server }, fun _ => none, fun _ => none,
    fun _ => none, fun _ => none⟩

/-- What `m_mode` passes on of `#c +k` and a key. -/
def keyCall (key : CStr) : ModeCall := ⟨none, ["+k".toList, key]⟩

theorem mode_asserts_hold_iff_key :
    (keyCall "key".toList).Safe (textLine _)
      ((keyCall "key".toList).env roomyConfig 0 serverDir 0 0) default :=
  (mode_asserts_hold_iff roomyConfig 0 serverDir 0 0 default "#c +k key".toList
    (keyCall "key".toList) (textLine _) (.inl (by decide))).mpr
    ⟨fun h => absurd h (by decide), fun _ _ _ word hword => by
      obtain rfl : "key".toList = word := Option.some.inj hword
      decide, trivial⟩

/-- A server's key that begins with a blank, behind a colon. -/
theorem server_key_trips :
    mMode serverDir.clients 0 default (stringToArray "#c +k : x".toList) =
        some (keyCall " x".toList) ∧
      ¬(keyCall " x".toList).Safe (textLine _)
        ((keyCall " x".toList).env roomyConfig 0 serverDir 0 0) default := by
  refine ⟨by decide, fun h => ?_⟩
  have hholds := (h.2 ['+'] 'k' ⟨[], rfl⟩).holds
  revert hholds
  decide

end Ircd
