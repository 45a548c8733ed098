import Ircd.Ban
import Ircd.ModeLetters
import Mathlib.Logic.Relation

/-!
`set_channel_mode` and the functions of the mode letters, from the mode string to
the list of changes that is sent.

The functions of the letters are given the next parameter and may write back over
it, which is done to the line in `ParamStore.step`. The numerics of `find_chasing`
and of a full mask list are left out.

- `parn_chmLetter`: which letters use up a parameter.
-/

namespace Ircd

/-- `CAP_EX` and `CAP_IE`. -/
def CAP_EX : Nat := 0x4

def CAP_IE : Nat := 0x20

/-- `CHACCESS_NOTONCHAN` to `CHACCESS_CHANOP`. -/
inductive ChAccess where
  | notOnChan
  | peon
  | halfop
  | chanop
  deriving DecidableEq, Repr

def ChAccess.level : ChAccess → Int
  | .notOnChan => -1
  | .peon => 0
  | .halfop => 1
  | .chanop => 2

/-- `get_channel_access`. -/
def getChannelAccess (source : Client) (member : Option Membership) : ChAccess :=
  if !source.myClient then .chanop
  else
    match member with
    | none => .notOnChan
    | some member =>
      if .chanop ∈ member.flags then .chanop
      else if .halfop ∈ member.flags then .halfop
      else .peon

/-- Who is shown a change: `ALL_MEMBERS`, `NON_CHANOPS`, `ONLY_CHANOPS` and
`ONLY_SERVERS`. -/
inductive Mems where
  | allMembers
  | nonChanops
  | onlyChanops
  | onlyServers
  deriving DecidableEq, Repr

/-- What the `arg` of a change points to: a text, a parameter of the line, or the
key in the channel. -/
inductive ChangeArg where
  | none
  | text (t : CStr)
  | param (i : Nat)
  | key
  deriving DecidableEq, Repr

/-- An entry of `mode_changes`. The letter of a change that was dropped is NUL. -/
structure ModeChange where
  letter : Char
  dir : ModeDir
  arg : ChangeArg := .none
  id : Option CStr := none
  caps : Nat := 0
  nocaps : Nat := 0
  mems : Mems := .allMembers
  deriving DecidableEq, Repr

/-- `SM_ERR_NOOPS` and the other bits of `errors`. -/
inductive SmErr where
  | noops
  | unknown
  | rplB
  | rplE
  | rplI
  | notOnChannel
  deriving DecidableEq, Repr

/-- What the source is answered. -/
inductive ModeReply where
  | notOnChannel
  | chanOPrivsNeeded
  | userNotInChannel (nick : CStr)
  | unknownMode (c : Char)
  | list (type : BanType) (bans : List Ban)
  deriving DecidableEq

/-- What does not change during a command: `client_p`, `source_p` and its access,
`parc` counted from the mode string on, and what the functions ask. -/
structure ModeEnv where
  cf : Config
  now : Int
  dir : Directory
  client : Cid
  source : Cid
  alev : ChAccess
  parc : Nat

/-- `MyClient(source_p)`. -/
def ModeEnv.mine (env : ModeEnv) : Bool := (env.dir.clients env.source).myClient

/-- The variables of `set_channel_mode` and the static ones it resets. `back` is what
the letter wrote over its parameter. -/
structure ModeState where
  chptr : Channel
  parn : Nat := 1
  dir : ModeDir := .add
  errors : Finset SmErr := ∅
  modeLimit : Nat := 0
  simpleModesMask : Finset SimpleMode := ∅
  modeChanges : List ModeChange := []
  replies : List ModeReply := []
  back : Option CStr := none
  deriving DecidableEq

/-- `fix_key`, for a local client. -/
def fixKey (arg : CStr) : CStr :=
  (arg.map fun c => Char.ofNat (c.toNat % 128)).filter fun c =>
    c != ':' && decide (' ' < c) && c != ','

/-- `fix_key_old`. A character that loses its only bit ends the text. -/
def fixKeyOld (arg : CStr) : CStr :=
  ((arg.map fun c => Char.ofNat (c.toNat % 128)).filter fun c =>
    c != '\n' && c != ':' && c != '\r' && c != ',').takeWhile (· ≠ '\x00')

namespace ModeState

variable (env : ModeEnv) (st : ModeState)

/-- A bit of `errors` is set, and the answer given unless it was set. -/
def answer (err : SmErr) (reply : List ModeReply) : ModeState :=
  if err ∈ st.errors then st
  else { st with errors := insert err st.errors, replies := st.replies ++ reply }

/-- The access of the source is too low. -/
def refuse : ModeState :=
  st.answer .noops [if env.alev = .notOnChan then .notOnChannel else .chanOPrivsNeeded]

def push (change : ModeChange) : ModeState :=
  { st with modeChanges := st.modeChanges ++ [change] }

/-- An earlier `+` of the letter is dropped. -/
def dropEarlier (c : Char) : ModeState :=
  { st with modeChanges := st.modeChanges.map fun change =>
      if change.letter = c ∧ change.dir = .add then { change with letter := '\x00' } else change }

/-- `MyClient(source_p) && (++mode_limit > MAXMODEPARAMS)`, and what follows it. -/
def limited (next : ModeState → ModeState) : ModeState :=
  if env.mine then
    let st := { st with modeLimit := st.modeLimit + 1 }
    if MAXMODEPARAMS < st.modeLimit then st else next st
  else next st

def setFlags (who : Cid) (f : Finset ChFlag → Finset ChFlag) : ModeState :=
  { st with chptr := { st.chptr with
      members := st.chptr.members.map fun ms =>
        if ms.client = who then { ms with flags := f ms.flags } else ms } }

/-! ### The functions of the letters -/

/-- `chm_nosuch`. -/
def chmNosuch (c : Char) : ModeState := st.answer .unknown [.unknownMode c]

/-- `chm_simple`. -/
def chmSimple (mode : SimpleMode) (c : Char) : ModeState :=
  if env.alev.level < ChAccess.halfop.level ∨
      (mode = .priv ∧ env.alev.level < ChAccess.chanop.level) then st.refuse env
  else if mode ∈ st.simpleModesMask then st
  else
    let st := { st with simpleModesMask := insert mode st.simpleModesMask }
    let modes := st.chptr.mode
    match st.dir with
    | .add =>
      { st with chptr := { st.chptr with mode := { modes with mode := insert mode modes.mode } } }.push
        { letter := c, dir := .add }
    | .del =>
      { st with chptr := { st.chptr with mode := { modes with mode := modes.mode.erase mode } } }.push
        { letter := c, dir := .del }
    | .query => st

/-- The mask functions from the parameter on. A `-b` is passed on when it took no
ban away. -/
def setMask (type : BanType) (caps : Nat) (mems : Mems) (c : Char) (mask : CStr) : ModeState :=
  let change : ModeChange :=
    { letter := c, dir := st.dir, arg := .param st.parn, caps := caps, mems := mems }
  let st := { st with parn := st.parn + 1 }
  if (env.dir.clients env.client).isServer ∧ ' ' ∈ mask then st
  else
    match st.dir with
    | .add =>
      let r := addId env.cf env.now (env.dir.clients env.source) st.chptr mask type
      let st := { st with chptr := r.chptr, back := some r.banid }
      if r.ok then st.push change else st
    | .del =>
      let r := delId env.cf st.chptr mask type
      let st := { st with chptr := r.chptr, back := some r.banid }
      if r.ok ∨ type = .ban then st.push change else st
    | .query => st.push change

/-- `chm_ban`. -/
def chmBan (arg : Option CStr) (c : Char) : ModeState :=
  match if st.dir = .query then none else arg with
  | none => st.answer .rplB [.list .ban st.chptr.banlist]
  | some mask =>
    if env.alev.level < ChAccess.halfop.level then st.refuse env
    else st.limited env fun st => st.setMask env .ban 0 .allMembers c mask

/-- `chm_except` and `chm_invex`, which differ in the list, the setting, the bit of
`errors` and the capability. -/
def chmListed (type : BanType) (enabled : Bool) (err : SmErr) (caps : Nat) (arg : Option CStr)
    (c : Char) : ModeState :=
  if !enabled ∧ env.mine ∧ st.dir = .add ∧ arg.isSome then st.answer err []
  else if env.alev.level < ChAccess.halfop.level then st.refuse env
  else
    match if st.dir = .query then none else arg with
    | none => st.answer err [.list type (st.chptr.list type)]
    | some mask =>
      st.limited env fun st =>
        st.setMask env type caps (if enabled then .onlyChanops else .onlyServers) c mask

/-- `chm_except`. -/
def chmExcept (arg : Option CStr) (c : Char) : ModeState :=
  st.chmListed env .exception env.cf.channel.useExcept .rplE CAP_EX arg c

/-- `chm_invex`. -/
def chmInvex (arg : Option CStr) (c : Char) : ModeState :=
  st.chmListed env .invex env.cf.channel.useInvex .rplI CAP_IE arg c

/-- `chm_op`, `chm_hop` and `chm_voice`, which differ in the access they need, in
the flag, and in whether setting it takes `CHFL_DEOPPED` away. -/
def chmStatus (need : ChAccess) (flag : ChFlag) (undeop : Finset ChFlag) (arg : Option CStr)
    (c : Char) : ModeState :=
  if env.alev.level < need.level then st.refuse env
  else
    match if st.dir = .query then none else arg with
    | none => st
    | some opnick =>
      let st := { st with parn := st.parn + 1 }
      match findChasing env.dir (env.dir.clients env.client) opnick with
      | none => st
      | some targ =>
        let who := env.dir.clients targ
        if !who.isClient then st
        else
          match findChannelLink env.dir.clients targ st.chptr with
          | none => st.answer .notOnChannel [.userNotInChannel opnick]
          | some member =>
            st.limited env fun st =>
              if (st.dir = .add ∧ flag ∈ member.flags) ∨ (st.dir = .del ∧ flag ∉ member.flags) then
                st
              else
                (st.push
                  { letter := c, dir := st.dir, arg := .text who.name, id := some who.id }).setFlags
                  targ fun flags =>
                    if st.dir = .add then insert flag (flags \ undeop) else flags.erase flag

/-- `chm_op`. -/
def chmOp (arg : Option CStr) : ModeState := st.chmStatus env .chanop .chanop {.deopped} arg 'o'

/-- `chm_hop`. On a private channel it takes a channel operator. -/
def chmHop (arg : Option CStr) : ModeState :=
  st.chmStatus env (if .priv ∈ st.chptr.mode.mode then .chanop else .halfop) .halfop {.deopped}
    arg 'h'

/-- `chm_voice`. -/
def chmVoice (arg : Option CStr) : ModeState := st.chmStatus env .halfop .voice ∅ arg 'v'

/-- `chm_limit`. -/
def chmLimit (arg : Option CStr) (c : Char) : ModeState :=
  if env.alev.level < ChAccess.halfop.level then st.refuse env
  else
    match st.dir, arg with
    | .add, some lstr =>
      let i := st.parn
      let st := { st with parn := st.parn + 1 }
      if atoi lstr ≤ 0 then st
      else
        let st := (st.dropEarlier c).push { letter := c, dir := .add, arg := .param i }
        { st with
          back := some (dText (atoi lstr))
          chptr := { st.chptr with mode := { st.chptr.mode with limit := toLimit (atoi lstr) } } }
    | .del, _ =>
      if st.chptr.mode.limit = 0 then st
      else
        { st with chptr := { st.chptr with mode := { st.chptr.mode with limit := 0 } } }.push
          { letter := c, dir := .del }
    | _, _ => st

/-- `chm_key`. -/
def chmKey (arg : Option CStr) (c : Char) : ModeState :=
  if env.alev.level < ChAccess.halfop.level then st.refuse env
  else
    match st.dir, arg with
    | .add, some arg =>
      let key := if env.mine then fixKey arg else fixKeyOld arg
      let st := { st with parn := st.parn + 1, back := some key }
      if key = [] then st
      else
        let st :=
          { st with chptr := { st.chptr with
              mode := { st.chptr.mode with key := strlcpy key KEYLEN } } }
        (st.dropEarlier c).push { letter := c, dir := .add, arg := .key }
    | .del, arg =>
      let st := if arg.isSome then { st with parn := st.parn + 1 } else st
      if st.chptr.mode.key = [] then st
      else
        { st with chptr := { st.chptr with mode := { st.chptr.mode with key := [] } } }.push
          { letter := c, dir := .del, arg := .text ['*'] }
    | _, _ => st

/-- The functions of `ModeTable`. -/
def chmLetter (arg : Option CStr) (c : Char) : ModeState :=
  match c with
  | 'I' => st.chmInvex env arg c
  | 'b' => st.chmBan env arg c
  | 'e' => st.chmExcept env arg c
  | 'h' => st.chmHop env arg
  | 'k' => st.chmKey env arg c
  | 'l' => st.chmLimit env arg c
  | 'o' => st.chmOp env arg
  | 'v' => st.chmVoice env arg
  | c =>
    match simpleModeOf c with
    | some mode => st.chmSimple env mode c
    | none => st.chmNosuch c

/-- The body of the loop over the mode string, given the next parameter. -/
def modeStep (arg : Option CStr) (c : Char) : ModeState :=
  match signDir c with
  | some dir => { st with dir := dir, back := none }
  | none => { st with back := none }.chmLetter env arg c

end ModeState

/-- Where the parameters of a line are kept: `parv[i]` is read, and written over. -/
structure ParamStore (σ : Type) where
  read : σ → Nat → CStr
  write : σ → Nat → CStr → σ

namespace ParamStore

variable {σ : Type} (P : ParamStore σ) (env : ModeEnv)

def next (s : σ × ModeState) : Option CStr :=
  if s.2.parn < env.parc then some (P.read s.1 s.2.parn) else none

def step (s : σ × ModeState) (c : Char) : σ × ModeState :=
  let st := s.2.modeStep env (P.next env s) c
  (match st.back with
    | none => s.1
    | some text => P.write s.1 s.2.parn text, st)

/-- `set_channel_mode`, up to the call of `send_mode_changes`. -/
def setChannelMode (chptr : Channel) (params : σ) (modes : CStr) : σ × ModeState :=
  modes.foldl (P.step env) (params, { chptr := chptr })

end ParamStore

/-- Every parameter is a text of its own. -/
def textStore : ParamStore (List CStr) where
  read parv i := parv.getD i []
  write parv i text := parv.set i text

/-! ### Which letters use up a parameter -/

/-- The letters of `set_channel_mode` that take a parameter in this direction. -/
def modeTakes (dir : ModeDir) (c : Char) : Bool :=
  dir != .query && (c ∈ ['I', 'b', 'e', 'h', 'k', 'o', 'v'] || (c == 'l' && dir == .add))

namespace ModeState

variable {env : ModeEnv} {st : ModeState} {arg : Option CStr} {c : Char}

/-- A local client has room for another change with a parameter. -/
def room (env : ModeEnv) (st : ModeState) : Bool :=
  !env.mine || decide (st.modeLimit < MAXMODEPARAMS)

def needed (st : ModeState) (c : Char) : ChAccess :=
  if c = 'o' ∨ (c = 'h' ∧ .priv ∈ st.chptr.mode.mode) then .chanop else .halfop

/-- The letter comes as far as its parameter: the access suffices, `+e` and `+I` of a
local client are enabled, and there is room for another mask. -/
def Reaches (env : ModeEnv) (st : ModeState) (c : Char) : Prop :=
  (st.needed c).level ≤ env.alev.level ∧ (c ∈ ['I', 'b', 'e'] → st.room env = true) ∧
    (env.mine = true → st.dir = .add →
      (c = 'e' → env.cf.channel.useExcept = true) ∧ (c = 'I' → env.cf.channel.useInvex = true))

instance : Decidable (st.Reaches env c) := inferInstanceAs (Decidable (_ ∧ _ ∧ _))

@[simp] theorem answer_parn (err : SmErr) (reply : List ModeReply) :
    (st.answer err reply).parn = st.parn := by
  unfold answer
  split <;> rfl

@[simp] theorem refuse_parn : (st.refuse env).parn = st.parn := by simp [refuse]

@[simp] theorem setMask_parn (type : BanType) (caps : Nat) (mems : Mems) (mask : CStr) :
    (st.setMask env type caps mems c mask).parn = st.parn + 1 := by
  unfold setMask
  dsimp only
  split
  · rfl
  · split
    · split <;> rfl
    · split <;> rfl
    · rfl

theorem limited_parn {next : ModeState → ModeState} {n : Nat}
    (hnext : ∀ limit, (next { st with modeLimit := limit }).parn = n) :
    (st.limited env next).parn = if st.room env then n else st.parn := by
  unfold limited room
  cases env.mine with
  | false => exact hnext st.modeLimit
  | true =>
    by_cases hroom : st.modeLimit < MAXMODEPARAMS
    · have hle : ¬MAXMODEPARAMS < st.modeLimit + 1 := by omega
      simp [hroom, hle, hnext]
    · have hlt : MAXMODEPARAMS < st.modeLimit + 1 := by omega
      simp [hroom, hlt]

theorem chmBan_parn : (st.chmBan env arg c).parn =
    if (st.dir ≠ .query ∧ arg.isSome) ∧ ChAccess.halfop.level ≤ env.alev.level ∧
      st.room env = true then st.parn + 1
    else st.parn := by
  unfold chmBan
  by_cases hdir : st.dir = .query
  · simp [hdir]
  · cases arg with
    | none => simp [hdir]
    | some mask =>
      simp only [hdir, if_false]
      split
      · rename_i hlow
        rw [refuse_parn, if_neg (fun h => absurd h.2.1 (not_le.mpr hlow))]
      · rename_i hlevel
        rw [limited_parn (n := st.parn + 1) fun limit => by rw [setMask_parn]]
        simp [hdir, not_lt.mp hlevel]

theorem chmListed_parn (type : BanType) (enabled : Bool) (err : SmErr) (caps : Nat) :
    (st.chmListed env type enabled err caps arg c).parn =
      if (st.dir ≠ .query ∧ arg.isSome) ∧ ChAccess.halfop.level ≤ env.alev.level ∧
        st.room env = true ∧ (env.mine = true → st.dir = .add → enabled = true) then st.parn + 1
      else st.parn := by
  unfold chmListed
  split
  · rename_i h
    rw [answer_parn, if_neg]
    rintro ⟨-, -, -, henabled⟩
    simp [henabled h.2.1 h.2.2.1] at h
  · rename_i henabled
    split
    · rename_i hlow
      rw [refuse_parn, if_neg (fun h => absurd h.2.1 (not_le.mpr hlow))]
    · rename_i hlevel
      by_cases hdir : st.dir = .query
      · simp [hdir]
      · cases arg with
        | none => simp [hdir]
        | some mask =>
          simp only [hdir, if_false]
          rw [limited_parn (n := st.parn + 1) fun limit => by rw [setMask_parn]]
          have hon : (env.mine = true → st.dir = .add → enabled = true) ↔ True := by
            refine iff_true_intro fun hmine hadd => ?_
            by_contra hoff
            exact henabled ⟨by simpa using hoff, hmine, hadd, rfl⟩
          simp only [hon]
          simp [hdir, not_lt.mp hlevel]

theorem chmStatus_parn (need : ChAccess) (flag : ChFlag) (undeop : Finset ChFlag) :
    (st.chmStatus env need flag undeop arg c).parn =
      if (st.dir ≠ .query ∧ arg.isSome) ∧ need.level ≤ env.alev.level then st.parn + 1
      else st.parn := by
  unfold chmStatus
  split
  · rename_i hlow
    rw [refuse_parn, if_neg (fun h => absurd h.2 (not_le.mpr hlow))]
  · rename_i hlevel
    by_cases hdir : st.dir = .query
    · simp [hdir]
    · cases arg with
      | none => simp [hdir]
      | some opnick =>
        simp only [hdir, if_false]
        rw [if_pos ⟨⟨hdir, rfl⟩, not_lt.mp hlevel⟩]
        split
        · rfl
        · split
          · rfl
          · split
            · rw [answer_parn]
            · rw [limited_parn (n := st.parn + 1)]
              · exact ite_self _
              · intro limit
                split <;> rfl

theorem chmLimit_parn : (st.chmLimit env arg c).parn =
    if (st.dir = .add ∧ arg.isSome) ∧ ChAccess.halfop.level ≤ env.alev.level then st.parn + 1
    else st.parn := by
  unfold chmLimit
  split
  · rename_i hlow
    rw [refuse_parn, if_neg (fun h => absurd h.2 (not_le.mpr hlow))]
  · rename_i hlevel
    cases hdir : st.dir with
    | query => simp
    | add =>
      cases arg with
      | none => simp
      | some lstr =>
        simp only [Option.isSome_some, not_lt.mp hlevel, and_self, if_true]
        split <;> rfl
    | del =>
      simp only [reduceCtorEq, false_and, if_false]
      split <;> rfl

theorem chmKey_parn : (st.chmKey env arg c).parn =
    if (st.dir ≠ .query ∧ arg.isSome) ∧ ChAccess.halfop.level ≤ env.alev.level then st.parn + 1
    else st.parn := by
  unfold chmKey
  split
  · rename_i hlow
    rw [refuse_parn, if_neg (fun h => absurd h.2 (not_le.mpr hlow))]
  · rename_i hlevel
    cases hdir : st.dir with
    | query => simp
    | add =>
      cases arg with
      | none => simp
      | some key =>
        simp only [ne_eq, reduceCtorEq, not_false_eq_true, Option.isSome_some,
          not_lt.mp hlevel, and_self, if_true]
        generalize (if env.mine = true then _ else _) = key
        split <;> rfl
    | del =>
      cases arg with
      | none =>
        simp only [Option.isSome_none, Bool.false_eq_true, and_false, false_and, if_false]
        split <;> rfl
      | some key =>
        simp only [ne_eq, reduceCtorEq, not_false_eq_true, Option.isSome_some,
          not_lt.mp hlevel, and_self, if_true]
        split <;> rfl

theorem chmSimple_parn (mode : SimpleMode) : (st.chmSimple env mode c).parn = st.parn := by
  unfold chmSimple
  split
  · exact refuse_parn
  · split
    · rfl
    · dsimp only
      split <;> rfl

theorem parn_chmLetter : (st.chmLetter env arg c).parn =
    if (modeTakes st.dir c = true ∧ arg.isSome) ∧ st.Reaches env c then st.parn + 1
    else st.parn := by
  unfold chmLetter
  split
  · rw [chmInvex, chmListed_parn]
    simp [modeTakes, Reaches, needed]
  · rw [chmBan_parn]
    simp [modeTakes, Reaches, needed]
  · rw [chmExcept, chmListed_parn]
    simp [modeTakes, Reaches, needed]
  · rw [chmHop, chmStatus_parn]
    simp [modeTakes, Reaches, needed]
  · rw [chmKey_parn]
    simp [modeTakes, Reaches, needed]
  · rw [chmLimit_parn]
    have hdir : (¬st.dir = .query ∧ st.dir = .add) ↔ st.dir = .add := by
      cases st.dir <;> simp
    simp [modeTakes, Reaches, needed, hdir]
  · rw [chmOp, chmStatus_parn]
    simp [modeTakes, Reaches, needed]
  · rw [chmVoice, chmStatus_parn]
    simp [modeTakes, Reaches, needed]
  · rename_i hI hb he hh hk hl ho hv
    have hnone : modeTakes st.dir c = false := by
      have hmem : c ∉ ['I', 'b', 'e', 'h', 'k', 'o', 'v'] := by
        simp only [List.mem_cons, List.not_mem_nil, or_false, not_or]
        exact ⟨hI, hb, he, hh, hk, ho, hv⟩
      have hlimit : (c == 'l') = false := beq_eq_false_iff_ne.mpr hl
      simp [modeTakes, hmem, hlimit]
    rw [hnone]
    simp only [Bool.false_eq_true, false_and, if_false]
    split
    · exact chmSimple_parn _
    · rw [chmNosuch, answer_parn]

/-! ### What a letter does, one thing after the other -/

/-- One thing that the function of a letter can do. -/
inductive Move (env : ModeEnv) (arg : Option CStr) (c : Char) : ModeState → ModeState → Prop where
  | answer (st : ModeState) (err : SmErr) (reply : List ModeReply) :
      Move env arg c st (st.answer err reply)
  | count (st : ModeState) (limit : Nat) : Move env arg c st { st with modeLimit := limit }
  | use (st : ModeState) (back : Option CStr) :
      Move env arg c st { st with parn := st.parn + 1, back := back }
  | mask (st : ModeState) (type : BanType) (caps : Nat) (mems : Mems) {mask : CStr}
      (hdir : st.dir ≠ .query) (harg : arg = some mask) :
      Move env arg c st (st.setMask env type caps mems c mask)
  | status (st : ModeState) (who : Cid) (flags : Finset ChFlag → Finset ChFlag)
      (hdir : st.dir ≠ .query) :
      Move env arg c st ((st.push
        { letter := c, dir := st.dir, arg := .text (env.dir.clients who).name,
          id := some (env.dir.clients who).id }).setFlags who flags)
  | drop (st : ModeState) : Move env arg c st (st.dropEarlier c)
  | limitOn (st : ModeState) (limit : Fin 4294967296) (back : Option CStr) (i : Nat) :
      Move env arg c st
        { st.push { letter := c, dir := .add, arg := .param i } with
          parn := st.parn + 1
          back := back
          chptr := { st.chptr with mode := { st.chptr.mode with limit := limit } } }
  | limitOff (st : ModeState) (hlimit : st.chptr.mode.limit ≠ 0) :
      Move env arg c st
        (({ st with chptr := { st.chptr with mode := { st.chptr.mode with limit := 0 } } } :
          ModeState).push { letter := c, dir := .del })
  | keyOn (st : ModeState) (key : CStr) :
      Move env arg c st
        (({ st with chptr := { st.chptr with mode := { st.chptr.mode with key := key } } } :
          ModeState).push { letter := c, dir := .add, arg := .key })
  | keyOff (st : ModeState) :
      Move env arg c st
        (({ st with chptr := { st.chptr with mode := { st.chptr.mode with key := [] } } } :
          ModeState).push { letter := c, dir := .del, arg := .text ['*'] })
  | simple (st : ModeState) (mode : SimpleMode) (modes : Finset SimpleMode) {dir : ModeDir}
      (hnew : mode ∉ st.simpleModesMask) (hdir : dir ≠ .query) :
      Move env arg c st
        (({ st with
          simpleModesMask := insert mode st.simpleModesMask
          chptr := { st.chptr with mode := { st.chptr.mode with mode := modes } } } :
            ModeState).push { letter := c, dir := dir })
  | seen (st : ModeState) (mode : SimpleMode) (hnew : mode ∉ st.simpleModesMask) :
      Move env arg c st { st with simpleModesMask := insert mode st.simpleModesMask }

abbrev Moves (env : ModeEnv) (arg : Option CStr) (c : Char) : ModeState → ModeState → Prop :=
  Relation.ReflTransGen (Move env arg c)

variable {st' : ModeState}

theorem moves_limited {next : ModeState → ModeState}
    (hnext : ∀ limit, Moves env arg c { st with modeLimit := limit }
      (next { st with modeLimit := limit })) : Moves env arg c st (st.limited env next) := by
  unfold limited
  cases env.mine with
  | false => exact hnext st.modeLimit
  | true =>
    simp only [if_true]
    split
    · exact .single (.count ..)
    · exact .head (.count ..) (hnext _)

theorem moves_refuse : Moves env arg c st (st.refuse env) := .single (.answer ..)

theorem moves_chmBan : Moves env arg c st (st.chmBan env arg c) := by
  unfold chmBan
  by_cases hdir : st.dir = .query
  · simp only [hdir, if_true]
    exact .single (.answer ..)
  · cases arg with
    | none =>
      simp only [hdir, if_false]
      exact .single (.answer ..)
    | some mask =>
      simp only [hdir, if_false]
      split
      · exact moves_refuse
      · exact moves_limited fun limit => .single (.mask _ _ _ _ hdir rfl)

theorem moves_chmListed (type : BanType) (enabled : Bool) (err : SmErr) (caps : Nat) :
    Moves env arg c st (st.chmListed env type enabled err caps arg c) := by
  unfold chmListed
  split
  · exact .single (.answer ..)
  · split
    · exact moves_refuse
    · by_cases hdir : st.dir = .query
      · simp only [hdir, if_true]
        exact .single (.answer ..)
      · cases arg with
        | none =>
          simp only [hdir, if_false]
          exact .single (.answer ..)
        | some mask =>
          simp only [hdir, if_false]
          exact moves_limited fun limit => .single (.mask _ _ _ _ hdir rfl)

theorem moves_chmStatus (need : ChAccess) (flag : ChFlag) (undeop : Finset ChFlag) :
    Moves env arg c st (st.chmStatus env need flag undeop arg c) := by
  unfold chmStatus
  split
  · exact moves_refuse
  · by_cases hdir : st.dir = .query
    · simp only [hdir, if_true]
      exact .refl
    · cases arg with
      | none =>
        simp only [hdir, if_false]
        exact .refl
      | some opnick =>
        simp only [hdir, if_false]
        have hused : Moves env (some opnick) c st { st with parn := st.parn + 1 } :=
          .single (.use st st.back)
        split
        · exact hused
        · split
          · exact hused
          · split
            · exact hused.tail (.answer ..)
            · apply hused.trans
              apply moves_limited
              intro limit
              split
              · exact .refl
              · exact .single (.status _ _ _ hdir)

theorem moves_chmLimit : Moves env arg c st (st.chmLimit env arg c) := by
  unfold chmLimit
  split
  · exact moves_refuse
  · split
    · dsimp only
      split
      · exact .single (.use st st.back)
      · exact .tail (.single (.drop st)) (.limitOn ..)
    · split
      · exact .refl
      · rename_i hlimit
        exact .single (.limitOff st hlimit)
    · exact .refl

theorem moves_chmKey : Moves env arg c st (st.chmKey env arg c) := by
  unfold chmKey
  split
  · exact moves_refuse
  · split
    · rename_i word _
      dsimp only
      generalize (if env.mine = true then _ else _) = key
      have hused : Moves env (some word) c st { st with parn := st.parn + 1, back := some key } :=
        .single (.use st (some key))
      split
      · exact hused
      · exact (hused.tail (.drop _)).tail (.keyOn _ (strlcpy key KEYLEN))
    · rename_i param _ _ _
      have hdel : ∀ st : ModeState, Moves env param c st
          (if st.chptr.mode.key = [] then st
            else ({ st with chptr := { st.chptr with mode := { st.chptr.mode with key := [] } } } :
              ModeState).push { letter := c, dir := .del, arg := .text ['*'] }) := by
        intro st
        split
        · exact .refl
        · exact .single (.keyOff st)
      cases param with
      | none => exact hdel st
      | some key => exact .head (.use st st.back) (hdel _)
    · exact .refl

theorem moves_chmSimple (mode : SimpleMode) : Moves env arg c st (st.chmSimple env mode c) := by
  unfold chmSimple
  split
  · exact moves_refuse
  · split
    · exact .refl
    · rename_i hnew
      dsimp only
      split
      · exact .single (.simple st mode _ hnew (by decide))
      · exact .single (.simple st mode _ hnew (by decide))
      · exact .single (.seen st mode hnew)

theorem moves_chmLetter : Moves env arg c st (st.chmLetter env arg c) := by
  unfold chmLetter
  split
  · exact moves_chmListed ..
  · exact moves_chmBan
  · exact moves_chmListed ..
  · exact moves_chmStatus ..
  · exact moves_chmKey
  · exact moves_chmLimit
  · exact moves_chmStatus ..
  · exact moves_chmStatus ..
  · split
    · exact moves_chmSimple _
    · exact .single (.answer ..)

@[simp] theorem answer_dir (err : SmErr) (reply : List ModeReply) :
    (st.answer err reply).dir = st.dir := by
  unfold answer
  split <;> rfl

@[simp] theorem setMask_dir (type : BanType) (caps : Nat) (mems : Mems) (mask : CStr) :
    (st.setMask env type caps mems c mask).dir = st.dir := by
  unfold setMask
  dsimp only
  split
  · rfl
  · split
    · split <;> rfl
    · split <;> rfl
    · rfl

theorem Moves.dir (h : Moves env arg c st st') : st'.dir = st.dir := by
  induction h with
  | refl => rfl
  | tail _ hmove ih =>
    rw [← ih]
    cases hmove with
    | answer => exact answer_dir ..
    | mask => exact setMask_dir ..
    | _ => rfl

end ModeState

end Ircd
