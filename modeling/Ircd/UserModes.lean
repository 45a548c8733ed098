import Ircd.Lib.Run
import Ircd.Registration
import Mathlib.Data.Finset.Union

/-!
User modes on three servers in a row: `set_user_mode`, `send_umode_out` and `oper_up` on the
server of a user, and `set_user_mode` on the servers that get the lines.

What is sent is the difference of two sets of modes, a letter at a time, and a server that
reads `-o` takes more modes away than the letter says.

- `setUserMode_sent`: a server that reads the difference gets to the modes it leads to.
- `umodes_agree`: the other servers know the modes in `SEND_UMODES`, in every run.
-/

namespace Ircd

/-- What the configuration says about modes: `oper_only_umodes` and `oper_umodes`. -/
structure UmodeConf where
  operOnlyUmodes : Finset UMode
  operUmodes : Finset UMode

/-- The oper flags that the modes depend on: `OPER_FLAG_N`, `OPER_FLAG_ADMIN` and
`OPER_FLAG_HIDDEN_ADMIN`. -/
structure OperFlags where
  n : Bool := false
  admin : Bool := false
  hiddenAdmin : Bool := false
  deriving DecidableEq, Repr

/-- `SetOFlag`. -/
def OperFlags.set (x y : OperFlags) : OperFlags :=
  ⟨x.n || y.n, x.admin || y.admin, x.hiddenAdmin || y.hiddenAdmin⟩

/-- A user as one server knows it; `operflags` is there where the user is connected. -/
@[ext] structure ModeUser where
  umodes : Finset UMode
  operflags : Option OperFlags
  deriving DecidableEq

namespace ModeUser

/-- `MyConnect`. -/
def myConnect (x : ModeUser) : Bool := x.operflags.isSome

/-- `IsOper`. -/
def isOper (x : ModeUser) : Bool := decide (.oper ∈ x.umodes)

/-- `IsOperN`. -/
def isOperN (x : ModeUser) : Bool := (x.operflags.map OperFlags.n).getD false

/-- `IsOperAdmin`. -/
def isOperAdmin (x : ModeUser) : Bool := (x.operflags.map OperFlags.admin).getD false

/-- `IsOperHiddenAdmin`. -/
def isOperHiddenAdmin (x : ModeUser) : Bool := (x.operflags.map OperFlags.hiddenAdmin).getD false

end ModeUser

/-! ### Setting modes -/

/-- The state of the loop of `set_user_mode`: the user, `what` (`MODE_ADD`?), `badflag`. -/
structure UmodeLoop where
  user : ModeUser
  what : Bool := true
  badflag : Bool := false

/-- One letter; `fromServer` is `IsServer(client_p)`. -/
def umodeLetter (conf : UmodeConf) (fromServer : Bool) (s : UmodeLoop) (m : Char) : UmodeLoop :=
  if m = '+' then { s with what := true }
  else if m = '-' then { s with what := false }
  else if m = 'o' then
    if s.what then
      if fromServer && !s.user.isOper then
        { s with user := { s.user with umodes := insert .oper s.user.umodes } }
      else s
    else if !s.user.isOper then s
    else
      { s with
        user :=
          { umodes := (s.user.umodes \ {.oper, .admin}) \ conf.operOnlyUmodes
            operflags := s.user.operflags.map fun _ => {} } }
  else if m = ' ' ∨ m = '\n' ∨ m = '\r' ∨ m = '\t' then s
  else
    match userModes m with
    | some flag =>
      if s.user.myConnect && !s.user.isOper && decide (flag ∈ conf.operOnlyUmodes) then
        { s with badflag := true }
      else
        { s with
          user :=
            { s.user with
              umodes := if s.what then insert flag s.user.umodes else s.user.umodes.erase flag } }
    | none => if s.user.myConnect then { s with badflag := true } else s

/-- `set_user_mode` without the lines it sends: the user, and whether it is told of an unknown
mode. -/
def setUserMode (conf : UmodeConf) (fromServer : Bool) (user : ModeUser) (modes : List CStr) :
    ModeUser × Bool :=
  let s := modes.flatten.foldl (umodeLetter conf fromServer) { user := user }
  let user := s.user
  let user :=
    if user.isOperN then user else { user with umodes := user.umodes.erase .nchange }
  let user :=
    if user.myConnect && !user.isOperAdmin && !user.isOperHiddenAdmin then
      { user with umodes := user.umodes.erase .admin }
    else user
  (user, s.badflag)

/-- `oper_up`, with the flags of the oper block. -/
def operUp (conf : UmodeConf) (user : ModeUser) (port : OperFlags) : ModeUser :=
  let umodes := insert .oper user.umodes ∪
    (if conf.operUmodes = ∅ then defaultOperUmodes else conf.operUmodes)
  let user : ModeUser := ⟨umodes, user.operflags.map (·.set port)⟩
  let user :=
    if user.isOperAdmin || user.isOperHiddenAdmin then
      { user with umodes := insert .admin user.umodes }
    else user
  if user.isOperN then user else { user with umodes := user.umodes.erase .nchange }

/-! ### Telling modes -/

/-- The letters of `user_modes` in the order of the characters. -/
def umodeLetters : List (Char × UMode) :=
  [('D', .deaf), ('G', .softcallerid), ('a', .admin), ('b', .bots), ('c', .cconn), ('d', .debug),
    ('f', .full), ('g', .callerid), ('i', .invisible), ('k', .skill), ('l', .locops),
      ('n', .nchange),
    ('o', .oper), ('r', .rej), ('s', .servnotice), ('u', .unauth), ('w', .wallop), ('x', .external),
    ('y', .spy), ('z', .operwall)]

/-- The loop of `send_umode`; `what` is the sign that the buffer has had last. -/
def umodeText (user : ModeUser) (old sendmask : Finset UMode) :
    Option Bool → List (Char × UMode) → CStr
  | _, [] => []
  | what, (i, flag) :: rest =>
    if user.myConnect && !decide (flag ∈ sendmask) then umodeText user old sendmask what rest
    else if flag ∈ old ∧ flag ∉ user.umodes then
      if what = some false then i :: umodeText user old sendmask what rest
      else '-' :: i :: umodeText user old sendmask (some false) rest
    else if flag ∉ old ∧ flag ∈ user.umodes then
      if what = some true then i :: umodeText user old sendmask what rest
      else '+' :: i :: umodeText user old sendmask (some true) rest
    else umodeText user old sendmask what rest

/-- `send_umode`: the text of the change. -/
def sendUmode (user : ModeUser) (old sendmask : Finset UMode) : CStr :=
  umodeText user old sendmask none umodeLetters

/-- The modes that servers are told of a user. -/
def sendmask (user : ModeUser) : Finset UMode :=
  if user.isOperHiddenAdmin then SEND_UMODES.erase .admin else SEND_UMODES

/-- `send_umode_out`: the text of the MODE for the other servers; none is sent when it is empty. -/
def sendUmodeOut (user : ModeUser) (old : Finset UMode) : CStr := sendUmode user old (sendmask user)

/-- The modes in the NICK or UID that introduces a user, `send_umode` having found this text. -/
def introText (text : CStr) : CStr := if text = [] then ['+'] else text

/-- The modes in the NICK or UID of `introduce_client`. -/
def introduceClient (user : ModeUser) : CStr := introText (sendUmode user ∅ SEND_UMODES)

/-- The modes in the NICK or UID of `sendnick_TS`. -/
def sendnickTS (user : ModeUser) : CStr := introText (sendUmode user ∅ (sendmask user))

/-- The modes of a new user in `client_from_server`. -/
def clientFromServer (parv4 : CStr) : ModeUser where
  umodes := parv4.tail.foldl
    (fun umodes m =>
      match userModes m with
      | some flag => if flag ∈ SEND_UMODES then insert flag umodes else umodes
      | none => umodes) ∅
  operflags := none

/-! ### Three servers in a row -/

/-- A user on its server, on a server that is linked to it, and on a third behind that one,
where they know the user; `thirdLinked` is the link between the last two. -/
structure ModeNet where
  me : ModeUser
  other : Option ModeUser
  third : Option ModeUser
  thirdLinked : Bool

/-- What happens: the user changes its modes or becomes an operator, or a link comes up or
breaks. -/
inductive ModeOp
  | mode (modes : List CStr)
  | operUp (port : OperFlags)
  | linkOther
  | linkThird
  | splitOther
  | splitThird
  deriving DecidableEq, Repr

namespace ModeNet

/-- The MODE that a server gets, if there is a text to send. -/
def receive (conf : UmodeConf) (user : ModeUser) (text : CStr) : ModeUser :=
  if text = [] then user else (setUserMode conf true user [text]).1

/-- The MODE with this text goes to the other server, and what that one sends to the third.
Links keep the order of lines, and nothing comes back, so each is read at once here. -/
def spread (conf : UmodeConf) (s : ModeNet) (text : CStr) : ModeNet :=
  match s.other with
  | none => s
  | some user =>
    let user' := receive conf user text
    let text' := if text = [] then [] else sendUmodeOut user' user.umodes
    { s with other := some user', third := s.third.map fun t => receive conf t text' }

/-- The user is introduced to the other server, which introduces it to the third. -/
def introduce (s : ModeNet) (parv4 : CStr) : ModeNet :=
  let user := clientFromServer parv4
  { s with
    other := some user
    third := if s.thirdLinked then some (clientFromServer (introduceClient user)) else none }

/-- `register_local_user`, and the introduction to the servers that are linked then. -/
def start (invisibleOnConnect other third : Bool) : ModeNet :=
  let me : ModeUser := ⟨if invisibleOnConnect then {.invisible} else ∅, some {}⟩
  let s : ModeNet := ⟨me, none, none, third⟩
  if other then s.introduce (introduceClient me) else s

/-- One operation. `oper_up` is for a user that is no operator, and a link that is up stays up. -/
def step (conf : UmodeConf) (s : ModeNet) : ModeOp → ModeNet
  | .mode modes =>
    let me := (setUserMode conf false s.me modes).1
    spread conf { s with me := me } (sendUmodeOut me s.me.umodes)
  | .operUp port =>
    if s.me.isOper then s
    else
      let me := operUp conf s.me port
      spread conf { s with me := me } (sendUmodeOut me s.me.umodes)
  | .linkOther => if s.other.isSome then s else s.introduce (sendnickTS s.me)
  | .linkThird =>
    if s.thirdLinked then s
    else
      { s with
        thirdLinked := true
        third := s.other.map fun user => clientFromServer (sendnickTS user) }
  | .splitOther => { s with other := none, third := none }
  | .splitThird => { s with third := none, thirdLinked := false }

end ModeNet

/-! ### Reading a difference -/

/-- The modes that other servers know of a user. -/
def visible (user : ModeUser) : Finset UMode := user.umodes ∩ sendmask user

/-- The mode stands in the text of a change. -/
def InText (user : ModeUser) (old mask : Finset UMode) (flag : UMode) : Prop :=
  (user.myConnect = true → flag ∈ mask) ∧ (flag ∈ old ↔ flag ∉ user.umodes)

/-- A list of letters of `user_modes` in which each has its mode. -/
def Letters (l : List (Char × UMode)) : Prop :=
  ∀ p ∈ l, userModes p.1 = some p.2 ∧ (p.1 = 'o' ↔ p.2 = .oper) ∧
    p.1 ∉ ['+', '-', ' ', '\n', '\r', '\t']

theorem letters_umodeLetters : Letters umodeLetters := by
  unfold Letters umodeLetters
  decide

theorem mem_umodeLetters (flag : UMode) : ∃ i, (i, flag) ∈ umodeLetters := by
  cases flag <;> simp [umodeLetters]

/-- A server that reads the letter of a mode, under the sign that leads to the modes `N`. Taking
`o` away takes other modes away, which `N` does not have. -/
theorem umodeLetter_target {conf : UmodeConf} {N : Finset UMode} {s : UmodeLoop}
    (hremote : s.user.operflags = none) {i : Char} {flag : UMode}
    (hi : userModes i = some flag ∧ (i = 'o' ↔ flag = .oper) ∧
      i ∉ ['+', '-', ' ', '\n', '\r', '\t'])
    (hwhat : s.what = decide (flag ∈ N))
    (hoper : flag = .oper → .oper ∉ N → ∀ f ∈ N, f ≠ .admin ∧ f ∉ conf.operOnlyUmodes) :
    (umodeLetter conf true s i).user.operflags = none ∧ (umodeLetter conf true s i).what = s.what ∧
      ∀ f, (f = flag ∨ (f ∈ s.user.umodes ↔ f ∈ N)) →
        (f ∈ (umodeLetter conf true s i).user.umodes ↔ f ∈ N) := by
  obtain ⟨hmode, hletter, hplain⟩ := hi
  simp only [List.mem_cons, List.not_mem_nil, or_false, not_or] at hplain
  obtain ⟨hplus, hminus, hblank, hnl, hcr, htab⟩ := hplain
  have hbehind : ¬(i = ' ' ∨ i = '\n' ∨ i = '\r' ∨ i = '\t') := by simp [hblank, hnl, hcr, htab]
  have hmine : s.user.myConnect = false := by simp [ModeUser.myConnect, hremote]
  by_cases ho : i = 'o'
  · have hflag := hletter.mp ho
    subst hflag
    by_cases hin : UMode.oper ∈ N
    · -- `+o`
      have hadd : s.what = true := by simp [hwhat, hin]
      by_cases hold : UMode.oper ∈ s.user.umodes
      · have hsame : umodeLetter conf true s i = s := by
          simp [umodeLetter, ho, hadd, ModeUser.isOper, hold]
        rw [hsame]
        refine ⟨hremote, rfl, fun f hf => ?_⟩
        rcases hf with rfl | hf
        · exact iff_of_true hold hin
        · exact hf
      · have hset : umodeLetter conf true s i =
            { s with user := { s.user with umodes := insert .oper s.user.umodes } } := by
          simp [umodeLetter, ho, hadd, ModeUser.isOper, hold]
        rw [hset]
        refine ⟨hremote, rfl, fun f hf => ?_⟩
        rcases hf with rfl | hf
        · exact iff_of_true (Finset.mem_insert_self _ _) hin
        · rw [Finset.mem_insert, hf]
          exact ⟨fun h => h.elim (fun heq => heq ▸ hin) id, Or.inr⟩
    · -- `-o`
      have hdel : s.what = false := by simp [hwhat, hin]
      by_cases hold : UMode.oper ∈ s.user.umodes
      · have hset : umodeLetter conf true s i =
            { s with
              user :=
                { umodes := (s.user.umodes \ {.oper, .admin}) \ conf.operOnlyUmodes
                  operflags := s.user.operflags.map fun _ => {} } } := by
          simp [umodeLetter, ho, hdel, ModeUser.isOper, hold]
        rw [hset]
        refine ⟨by simp [hremote], rfl, fun f hf => ?_⟩
        simp only [Finset.mem_sdiff, Finset.mem_insert, Finset.mem_singleton, not_or]
        rcases hf with rfl | hf
        · exact iff_of_false (fun h => h.1.2.1 rfl) hin
        · rw [hf]
          refine ⟨fun h => h.1.1, fun h => ?_⟩
          obtain ⟨hadmin, honly⟩ := hoper rfl hin f h
          exact ⟨⟨h, fun heq => hin (heq ▸ h), hadmin⟩, honly⟩
      · have hsame : umodeLetter conf true s i = s := by
          simp [umodeLetter, ho, hdel, ModeUser.isOper, hold]
        rw [hsame]
        refine ⟨hremote, rfl, fun f hf => ?_⟩
        rcases hf with rfl | hf
        · exact iff_of_false hold hin
        · exact hf
  · have hset : umodeLetter conf true s i =
        { s with
          user :=
            { s.user with
              umodes := if s.what then insert flag s.user.umodes else s.user.umodes.erase flag
                } } := by
      simp only [umodeLetter, if_neg hplus, if_neg hminus, if_neg ho, if_neg hbehind, hmode, hmine,
        Bool.false_and, Bool.false_eq_true, if_false]
    rw [hset]
    refine ⟨hremote, rfl, fun f hf => ?_⟩
    by_cases hin : flag ∈ N
    · simp only [hwhat, hin, decide_true, if_true, Finset.mem_insert]
      rcases hf with rfl | hf
      · exact iff_of_true (Or.inl rfl) hin
      · rw [hf]
        exact ⟨fun h => h.elim (fun heq => heq ▸ hin) id, Or.inr⟩
    · simp only [hwhat, hin, decide_false, Bool.false_eq_true, if_false, Finset.mem_erase]
      rcases hf with rfl | hf
      · exact iff_of_false (fun h => h.1 rfl) hin
      · rw [hf]
        exact ⟨fun h => h.2, fun h => ⟨fun heq => hin (heq ▸ h), h⟩⟩

theorem foldl_umodeText {conf : UmodeConf} {user : ModeUser} {old mask N : Finset UMode}
    {l : List (Char × UMode)} (hl : Letters l)
    (hN : ∀ p ∈ l, InText user old mask p.2 → (p.2 ∈ N ↔ p.2 ∈ user.umodes))
    (hoper : (∃ p ∈ l, p.2 = .oper ∧ InText user old mask .oper) → .oper ∉ N →
      ∀ f ∈ N, f ≠ .admin ∧ f ∉ conf.operOnlyUmodes)
    {what : Option Bool} {s : UmodeLoop} (hremote : s.user.operflags = none)
    (hwhat : ∀ b, what = some b → s.what = b) :
    ((umodeText user old mask what l).foldl (umodeLetter conf true) s).user.operflags = none ∧
      ∀ f, ((∃ p ∈ l, p.2 = f ∧ InText user old mask f) ∨ (f ∈ s.user.umodes ↔ f ∈ N)) →
        (f ∈ ((umodeText user old mask what l).foldl (umodeLetter conf true) s).user.umodes ↔
          f ∈ N) := by
  induction l generalizing what s with
  | nil => exact ⟨hremote, fun f hf => hf.elim (fun ⟨p, hp, _⟩ => absurd hp List.not_mem_nil) id⟩
  | cons p l ih =>
    obtain ⟨i, flag⟩ := p
    have hrest := fun what s => @ih (fun p hp => hl p (List.mem_cons_of_mem _ hp))
      (fun p hp => hN p (List.mem_cons_of_mem _ hp))
      (fun ⟨p, hp, h⟩ => hoper ⟨p, List.mem_cons_of_mem _ hp, h⟩) what s
    have hskip : ¬InText user old mask flag → ∀ f,
        ((∃ p ∈ (i, flag) :: l, p.2 = f ∧ InText user old mask f) ∨ (f ∈ s.user.umodes ↔ f ∈ N)) →
        ((∃ p ∈ l, p.2 = f ∧ InText user old mask f) ∨ (f ∈ s.user.umodes ↔ f ∈ N)) := by
      rintro hnot f (⟨p, hp, heq, hsent⟩ | hf)
      · rcases List.mem_cons.mp hp with rfl | hp
        · obtain rfl : flag = f := heq
          exact absurd hsent hnot
        · exact Or.inl ⟨p, hp, heq, hsent⟩
      · exact Or.inr hf
    -- a letter that is sent, behind its sign
    have hletter : ∀ b : Bool, InText user old mask flag → (b = true ↔ flag ∈ user.umodes) →
        (((i :: umodeText user old mask (some b) l).foldl (umodeLetter conf true)
            { s with what := b }).user.operflags = none ∧
          ∀ f, ((∃ p ∈ (i, flag) :: l, p.2 = f ∧ InText user old mask f) ∨
              (f ∈ s.user.umodes ↔ f ∈ N)) →
            (f ∈ ((i :: umodeText user old mask (some b) l).foldl (umodeLetter conf true)
              { s with what := b }).user.umodes ↔ f ∈ N)) := by
      intro b hsent hb
      have htarget := hN (i, flag) List.mem_cons_self hsent
      have hsign : ({ s with what := b } : UmodeLoop).what = decide (flag ∈ N) := by
        rw [Bool.eq_iff_iff, decide_eq_true_iff, htarget]
        exact hb
      have hside : flag = .oper → .oper ∉ N → ∀ f ∈ N, f ≠ .admin ∧ f ∉ conf.operOnlyUmodes := by
        rintro rfl
        exact hoper ⟨(i, .oper), List.mem_cons_self, rfl, hsent⟩
      obtain ⟨hremote', hwhat', hmodes⟩ := @umodeLetter_target conf N { s with what := b } hremote
        i flag (hl (i, flag) List.mem_cons_self) hsign hside
      rw [List.foldl_cons]
      obtain ⟨hnone, hall⟩ := hrest (some b) (umodeLetter conf true { s with what := b } i)
          hremote'
        (fun b' hb' => hwhat'.trans (Option.some.inj hb'))
      refine ⟨hnone, fun f hf => hall f ?_⟩
      rcases hf with ⟨p, hp, heq, hsent'⟩ | hf
      · rcases List.mem_cons.mp hp with rfl | hp
        · exact Or.inr (hmodes f (Or.inl heq.symm))
        · exact Or.inl ⟨p, hp, heq, hsent'⟩
      · exact Or.inr (hmodes f (Or.inr hf))
    rw [umodeText]
    by_cases hmask : (user.myConnect && !decide (flag ∈ mask)) = true
    · rw [if_pos hmask]
      simp only [Bool.and_eq_true, Bool.not_eq_true', decide_eq_false_iff_not] at hmask
      obtain ⟨hnone, hall⟩ := hrest what s hremote hwhat
      exact ⟨hnone, fun f hf => hall f (hskip (fun hsent => hmask.2 (hsent.1 hmask.1)) f hf)⟩
    rw [if_neg hmask]
    have hpass : user.myConnect = true → flag ∈ mask := by
      intro hmine
      by_contra hnot
      exact hmask (by simp [hmine, hnot])
    by_cases hdel : flag ∈ old ∧ flag ∉ user.umodes
    · have hsent : InText user old mask flag := ⟨hpass, iff_of_true hdel.1 hdel.2⟩
      have hfalse := hletter false hsent (by simp [hdel.2])
      rw [if_pos hdel]
      by_cases hsame : what = some false
      · have hs : ({ s with what := false } : UmodeLoop) = s := by rw [← hwhat false hsame]
        rw [if_pos hsame, hsame]
        rwa [hs] at hfalse
      · have hsign : umodeLetter conf true s '-' = { s with what := false } := rfl
        rw [if_neg hsame, List.foldl_cons, hsign]
        exact hfalse
    rw [if_neg hdel]
    by_cases hadd : flag ∉ old ∧ flag ∈ user.umodes
    · have hsent : InText user old mask flag := ⟨hpass, iff_of_false hadd.1 (not_not.mpr hadd.2)⟩
      have htrue := hletter true hsent (by simp [hadd.2])
      rw [if_pos hadd]
      by_cases hsame : what = some true
      · have hs : ({ s with what := true } : UmodeLoop) = s := by rw [← hwhat true hsame]
        rw [if_pos hsame, hsame]
        rwa [hs] at htrue
      · have hsign : umodeLetter conf true s '+' = { s with what := true } := rfl
        rw [if_neg hsame, List.foldl_cons, hsign]
        exact htrue
    rw [if_neg hadd]
    obtain ⟨hnone, hall⟩ := hrest what s hremote hwhat
    refine ⟨hnone, fun f hf => hall f (hskip (fun hsent => ?_) f hf)⟩
    by_cases hold : flag ∈ old
    · exact hdel ⟨hold, hsent.2.mp hold⟩
    · exact hadd ⟨hold, by_contra fun hnot => hold (hsent.2.mpr hnot)⟩

theorem receive_sent {conf : UmodeConf} {user : ModeUser} {old mask N r : Finset UMode}
    (hN : ∀ f, InText user old mask f → (f ∈ N ↔ f ∈ user.umodes))
    (hother : ∀ f, ¬InText user old mask f → (f ∈ r ↔ f ∈ N))
    (hoper : InText user old mask .oper → .oper ∉ N → ∀ f ∈ N, f ≠ .admin ∧ f ∉ conf.operOnlyUmodes)
    (hsend : N ⊆ SEND_UMODES) :
    ModeNet.receive conf ⟨r, none⟩ (sendUmode user old mask) = ⟨N, none⟩ := by
  obtain ⟨hremote, hmodes⟩ := @foldl_umodeText conf user old mask N umodeLetters
      letters_umodeLetters
    (fun p _ => hN p.2) (fun ⟨p, _, _, hsent⟩ => hoper hsent) none { user := ⟨r, none⟩ } rfl nofun
  have hall : ∀ f, f ∈ ((sendUmode user old mask).foldl (umodeLetter conf true)
      { user := ⟨r, none⟩ }).user.umodes ↔ f ∈ N := by
    intro f
    refine hmodes f ?_
    by_cases hsent : InText user old mask f
    · obtain ⟨i, hi⟩ := mem_umodeLetters f
      exact Or.inl ⟨(i, f), hi, rfl, hsent⟩
    · exact Or.inr (hother f hsent)
  have hfold : ((sendUmode user old mask).foldl (umodeLetter conf true)
      { user := ⟨r, none⟩ }).user =
      ⟨N, none⟩ :=
    ModeUser.ext (Finset.ext hall) hremote
  have hnchange : N.erase .nchange = N :=
    Finset.erase_eq_of_notMem fun hmem => absurd (hsend hmem) (by decide)
  rw [ModeNet.receive]
  by_cases hempty : sendUmode user old mask = []
  · rw [if_pos hempty]
    rw [hempty] at hfold
    exact hfold
  · rw [if_neg hempty, setUserMode, List.flatten_singleton, hfold]
    simp [ModeUser.isOperN, ModeUser.myConnect, hnchange]

/-! ### Introducing a user -/

theorem umodeText_intro (user : ModeUser) (mask : Finset UMode) (l : List (Char × UMode)) :
    (umodeText user ∅ mask none l = [] ∧ umodeText user ∅ mask (some true) l = []) ∨
      umodeText user ∅ mask none l = '+' :: umodeText user ∅ mask (some true) l := by
  induction l with
  | nil => exact Or.inl ⟨rfl, rfl⟩
  | cons p l ih =>
    obtain ⟨i, flag⟩ := p
    have hdel : ¬(flag ∈ (∅ : Finset UMode) ∧ flag ∉ user.umodes) := fun h => by simp at h
    rw [umodeText, umodeText]
    by_cases hmask : (user.myConnect && !decide (flag ∈ mask)) = true
    · rw [if_pos hmask, if_pos hmask]
      exact ih
    rw [if_neg hmask, if_neg hmask, if_neg hdel, if_neg hdel]
    by_cases hadd : flag ∉ (∅ : Finset UMode) ∧ flag ∈ user.umodes
    · rw [if_pos hadd, if_pos hadd, if_neg (by simp), if_pos rfl]
      exact Or.inr rfl
    · rw [if_neg hadd, if_neg hadd]
      exact ih

/-- A letter of the modes of a new user. -/
def introLetter (umodes : Finset UMode) (m : Char) : Finset UMode :=
  match userModes m with
  | some flag => if flag ∈ SEND_UMODES then insert flag umodes else umodes
  | none => umodes

theorem mem_foldl_introLetter (user : ModeUser) (mask : Finset UMode) {l : List (Char × UMode)}
    (hl : Letters l) (umodes : Finset UMode) (f : UMode) :
    f ∈ (umodeText user ∅ mask (some true) l).foldl introLetter umodes ↔
      f ∈ umodes ∨ f ∈ SEND_UMODES ∧ (∃ p ∈ l, p.2 = f) ∧ f ∈ user.umodes ∧
        (user.myConnect = true → f ∈ mask) := by
  induction l generalizing umodes with
  | nil => simp [umodeText]
  | cons p l ih =>
    obtain ⟨i, flag⟩ := p
    have hi := hl (i, flag) List.mem_cons_self
    have hrest := ih fun p hp => hl p (List.mem_cons_of_mem _ hp)
    have hcons : (∃ p ∈ (i, flag) :: l, p.2 = f) ↔ flag = f ∨ ∃ p ∈ l, p.2 = f := by
      simp
    have hdel : ¬(flag ∈ (∅ : Finset UMode) ∧ flag ∉ user.umodes) := fun h => by simp at h
    rw [umodeText, hcons]
    by_cases hmask : (user.myConnect && !decide (flag ∈ mask)) = true
    · rw [if_pos hmask, hrest]
      simp only [Bool.and_eq_true, Bool.not_eq_true', decide_eq_false_iff_not] at hmask
      refine or_congr_right (and_congr_right fun _ => ⟨fun h => ⟨Or.inr h.1, h.2⟩, fun h => ?_⟩)
      refine ⟨h.1.resolve_left ?_, h.2⟩
      rintro rfl
      exact hmask.2 (h.2.2 hmask.1)
    rw [if_neg hmask, if_neg hdel]
    have hpass : user.myConnect = true → flag ∈ mask := by
      intro hmine
      by_contra hnot
      exact hmask (by simp [hmine, hnot])
    by_cases hadd : flag ∉ (∅ : Finset UMode) ∧ flag ∈ user.umodes
    · have hletter : introLetter umodes i =
          if flag ∈ SEND_UMODES then insert flag umodes else umodes := by
        rw [introLetter, hi.1]
      rw [if_pos hadd, if_pos rfl, List.foldl_cons, hrest, hletter]
      by_cases hsend : flag ∈ SEND_UMODES
      · rw [if_pos hsend, Finset.mem_insert]
        constructor
        · rintro ((rfl | h) | ⟨h₁, h₂, h₃⟩)
          · exact Or.inr ⟨hsend, Or.inl rfl, hadd.2, hpass⟩
          · exact Or.inl h
          · exact Or.inr ⟨h₁, Or.inr h₂, h₃⟩
        · rintro (h | ⟨h₁, rfl | h₂, h₃⟩)
          · exact Or.inl (Or.inr h)
          · exact Or.inl (Or.inl rfl)
          · exact Or.inr ⟨h₁, h₂, h₃⟩
      · rw [if_neg hsend]
        refine or_congr_right (and_congr_right fun h₁ => and_congr_left fun _ => ?_)
        exact ⟨Or.inr, fun h => h.resolve_left fun heq => hsend (heq ▸ h₁)⟩
    · rw [if_neg hadd, hrest]
      refine or_congr_right (and_congr_right fun _ => ⟨fun h => ⟨Or.inr h.1, h.2⟩, fun h => ?_⟩)
      refine ⟨h.1.resolve_left ?_, h.2⟩
      rintro rfl
      exact hadd ⟨Finset.notMem_empty _, h.2.1⟩

theorem clientFromServer_sendUmode (user : ModeUser) (mask : Finset UMode) :
    clientFromServer (introText (sendUmode user ∅ mask)) =
      ⟨SEND_UMODES.filter fun f => f ∈ user.umodes ∧ (user.myConnect = true → f ∈ mask), none⟩ := by
  have htail : (introText (sendUmode user ∅ mask)).tail = umodeText user ∅ mask (some true)
      umodeLetters := by
    rcases umodeText_intro user mask umodeLetters with ⟨hnone, hsome⟩ | hplus
    · rw [sendUmode, hnone, hsome]
      rfl
    · rw [sendUmode, hplus]
      rfl
  refine ModeUser.ext (Finset.ext fun f => ?_) rfl
  change f ∈ (introText (sendUmode user ∅ mask)).tail.foldl introLetter ∅ ↔ _
  rw [htail, mem_foldl_introLetter user mask letters_umodeLetters, Finset.mem_filter]
  obtain ⟨i, hi⟩ := mem_umodeLetters f
  constructor
  · rintro (hempty | ⟨hsend, -, h⟩)
    · exact absurd hempty (Finset.notMem_empty f)
    · exact ⟨hsend, h⟩
  · rintro ⟨hsend, h⟩
    exact Or.inr ⟨hsend, ⟨(i, f), hi, rfl⟩, h⟩

/-! ### The server of the user -/

/-- A user on its own server: one that is no operator has no oper flags and is no admin. -/
structure Owned (user : ModeUser) : Prop where
  mine : user.operflags.isSome = true
  flags : .oper ∉ user.umodes → user.operflags = some {}
  admin : .oper ∉ user.umodes → .admin ∉ user.umodes

/-- A user in the loop of `set_user_mode`, from these modes and flags: still an operator as
before, or none, and then without the modes for operators if it was one. -/
def InLoop (conf : UmodeConf) (before user : ModeUser) : Prop :=
  .oper ∈ user.umodes ∧ .oper ∈ before.umodes ∧ user.operflags = before.operflags ∨
    .oper ∉ user.umodes ∧ user.operflags = some {} ∧
      (.oper ∈ before.umodes → ∀ f ∈ user.umodes, f ∉ conf.operOnlyUmodes)

theorem eq_o_of_userModes {i : Char} (h : userModes i = some .oper) : i = 'o' := by
  unfold userModes at h
  split at h <;> simp_all

theorem InLoop.umodeLetter {conf : UmodeConf} {before : ModeUser} {s : UmodeLoop}
    (hbefore : before.operflags.isSome = true) (h : InLoop conf before s.user) (i : Char) :
    InLoop conf before (umodeLetter conf false s i).user := by
  unfold Ircd.umodeLetter
  by_cases hplus : i = '+'
  · rw [if_pos hplus]
    exact h
  rw [if_neg hplus]
  by_cases hminus : i = '-'
  · rw [if_pos hminus]
    exact h
  rw [if_neg hminus]
  by_cases ho : i = 'o'
  · rw [if_pos ho]
    by_cases hadd : s.what = true
    · rw [if_pos hadd]
      exact h
    rw [if_neg hadd]
    rcases h with ⟨hoper, hwas, hflags⟩ | ⟨hnot, hflags, honly⟩
    · rw [if_neg (by simp [ModeUser.isOper, hoper])]
      obtain ⟨fl, hfl⟩ := Option.isSome_iff_exists.mp hbefore
      refine Or.inr ⟨by simp, by simp [hflags, hfl], fun _ f hf => ?_⟩
      exact (Finset.mem_sdiff.mp hf).2
    · rw [if_pos (by simp [ModeUser.isOper, hnot])]
      exact Or.inr ⟨hnot, hflags, honly⟩
  rw [if_neg ho]
  by_cases hblank : i = ' ' ∨ i = '\n' ∨ i = '\r' ∨ i = '\t'
  · rw [if_pos hblank]
    exact h
  rw [if_neg hblank]
  cases hmode : userModes i with
  | none =>
    by_cases hmine : s.user.myConnect = true
    · simp only [hmine, if_true]
      exact h
    · simp only [hmine]
      exact h
  | some flag =>
    have hne : UMode.oper ≠ flag := by
      rintro rfl
      exact ho (eq_o_of_userModes hmode)
    have hmem : ∀ f, f ∈ (if s.what = true then insert flag s.user.umodes else s.user.umodes.erase
        flag) →
        f = flag ∨ f ∈ s.user.umodes := by
      intro f hf
      split at hf
      · exact Finset.mem_insert.mp hf
      · exact Or.inr (Finset.mem_of_mem_erase hf)
    have hoper : UMode.oper ∈ (if s.what = true then insert flag s.user.umodes
        else s.user.umodes.erase flag) ↔ .oper ∈ s.user.umodes := by
      split
      · rw [Finset.mem_insert]
        exact or_iff_right hne
      · rw [Finset.mem_erase]
        exact and_iff_right hne
    simp only
    by_cases hbad : (s.user.myConnect && !s.user.isOper && decide (flag ∈ conf.operOnlyUmodes)) =
      true
    · rw [if_pos hbad]
      exact h
    rw [if_neg hbad]
    rcases h with ⟨hin, hwas, hflags⟩ | ⟨hnot, hflags, honly⟩
    · exact Or.inl ⟨hoper.mpr hin, hwas, hflags⟩
    · refine Or.inr ⟨fun hin => hnot (hoper.mp hin), hflags, fun hwas f hf => ?_⟩
      rcases hmem f hf with rfl | hf
      · intro honly'
        exact hbad (by simp [ModeUser.myConnect, hflags, ModeUser.isOper, hnot, honly'])
      · exact honly hwas f hf

/-- What a change of modes does to a user on its own server. -/
structure Changed (conf : UmodeConf) (before user : ModeUser) : Prop extends Owned user where
  hidden : user.isOperHiddenAdmin = true → before.isOperHiddenAdmin = true ∨ .admin ∉ before.umodes
  deoper : .oper ∈ before.umodes → .oper ∉ user.umodes → ∀ f ∈ user.umodes, f ∉ conf.operOnlyUmodes
  shown : before.isOperHiddenAdmin = true → user.isOperHiddenAdmin = false → .admin ∉ user.umodes

theorem changed_setUserMode (conf : UmodeConf) {before : ModeUser} (h : Owned before)
    (modes : List CStr) : Changed conf before (setUserMode conf false before modes).1 := by
  have hloop : ∀ (text : CStr) (s : UmodeLoop), InLoop conf before s.user →
      InLoop conf before (text.foldl (umodeLetter conf false) s).user := by
    intro text
    induction text with
    | nil => exact fun _ hs => hs
    | cons i text ih => exact fun s hs => ih _ (hs.umodeLetter h.mine i)
  have hstart : InLoop conf before before := by
    by_cases hoper : .oper ∈ before.umodes
    · exact Or.inl ⟨hoper, hoper, rfl⟩
    · exact Or.inr ⟨hoper, h.flags hoper, fun hwas => absurd hwas hoper⟩
  have hend := hloop modes.flatten { user := before } hstart
  rw [setUserMode]
  generalize (modes.flatten.foldl (umodeLetter conf false) { user := before }).user = user at hend ⊢
  -- what is taken away behind the loop
  set user₁ : ModeUser :=
    if user.isOperN then user else { user with umodes := user.umodes.erase .nchange } with huser₁
  have hflags₁ : user₁.operflags = user.operflags := by
    rw [huser₁]
    split <;> rfl
  have hmem₁ : ∀ f, f ∈ user₁.umodes → f ∈ user.umodes := by
    intro f hf
    rw [huser₁] at hf
    split at hf
    · exact hf
    · exact Finset.mem_of_mem_erase hf
  have hoper₁ : UMode.oper ∈ user.umodes → .oper ∈ user₁.umodes := by
    intro hin
    rw [huser₁]
    split
    · exact hin
    · exact Finset.mem_erase.mpr ⟨by decide, hin⟩
  set user₂ : ModeUser :=
    if user₁.myConnect && !user₁.isOperAdmin && !user₁.isOperHiddenAdmin then
      { user₁ with umodes := user₁.umodes.erase .admin }
    else user₁ with huser₂
  have hflags₂ : user₂.operflags = user.operflags := by
    rw [huser₂]
    split
    · exact hflags₁
    · exact hflags₁
  have hmem₂ : ∀ f, f ∈ user₂.umodes → f ∈ user.umodes := by
    intro f hf
    rw [huser₂] at hf
    split at hf
    · exact hmem₁ f (Finset.mem_of_mem_erase hf)
    · exact hmem₁ f hf
  have hoper₂ : UMode.oper ∈ user.umodes → .oper ∈ user₂.umodes := by
    intro hin
    rw [huser₂]
    split
    · exact Finset.mem_erase.mpr ⟨by decide, hoper₁ hin⟩
    · exact hoper₁ hin
  have hadmin : user.operflags = some {} → .admin ∉ user₂.umodes := by
    intro hnone
    have hclear : (user₁.myConnect && !user₁.isOperAdmin && !user₁.isOperHiddenAdmin) = true := by
      simp [ModeUser.myConnect, ModeUser.isOperAdmin, ModeUser.isOperHiddenAdmin, hflags₁, hnone]
    rw [huser₂, if_pos hclear]
    exact Finset.notMem_erase _ _
  have hhidden : ∀ user' : ModeUser, user'.operflags = some {} →
      user'.isOperHiddenAdmin = false := by
    intro user' hnone
    simp [ModeUser.isOperHiddenAdmin, hnone]
  change Changed conf before user₂
  rcases hend with ⟨hin, hwas, hflags⟩ | ⟨hnot, hflags, honly⟩
  · have hsame : user₂.operflags = before.operflags := hflags₂.trans hflags
    have hsamehidden : user₂.isOperHiddenAdmin = before.isOperHiddenAdmin := by
      rw [ModeUser.isOperHiddenAdmin, ModeUser.isOperHiddenAdmin, hsame]
    refine ⟨⟨by rw [hsame]; exact h.mine, fun hout => absurd (hoper₂ hin) hout,
      fun hout => absurd (hoper₂ hin) hout⟩, fun hyes => Or.inl (hsamehidden ▸ hyes),
      fun _ hout => absurd (hoper₂ hin) hout, fun hyes hno => ?_⟩
    rw [hsamehidden, hyes] at hno
    cases hno
  · have hnone : user₂.operflags = some {} := hflags₂.trans hflags
    refine ⟨⟨by rw [hnone]; rfl, fun _ => hnone, fun _ => hadmin hflags⟩, fun hyes => ?_,
      fun hwas _ f hf => honly hwas f (hmem₂ f hf), fun _ _ => hadmin hflags⟩
    rw [hhidden user₂ hnone] at hyes
    cases hyes

theorem changed_operUp (conf : UmodeConf) {before : ModeUser} (h : Owned before)
    (hno : .oper ∉ before.umodes) (port : OperFlags) : Changed conf before
      (operUp conf before port) := by
  have hin : .oper ∈ (operUp conf before port).umodes := by
    unfold operUp
    dsimp only
    split <;> split <;> split <;> simp
  have hmine : (operUp conf before port).operflags = before.operflags.map (·.set port) := by
    unfold operUp
    dsimp only
    split <;> split <;> split <;> rfl
  have hhidden : before.isOperHiddenAdmin = false := by
    simp [ModeUser.isOperHiddenAdmin, h.flags hno]
  refine ⟨⟨?_, fun hout => absurd hin hout, fun hout => absurd hin hout⟩,
    fun _ => Or.inr (h.admin hno), fun hwas => absurd hwas hno, fun hyes => ?_⟩
  · rw [hmine, Option.isSome_map]
    exact h.mine
  · rw [hhidden] at hyes
    cases hyes

/-! ### Runs -/

theorem visible_subset (user : ModeUser) : visible user ⊆ SEND_UMODES := by
  unfold visible sendmask
  split
  · exact fun f hf => Finset.mem_of_mem_erase (Finset.mem_inter.mp hf).2
  · exact Finset.inter_subset_right

theorem receive_changed {conf : UmodeConf} {before user : ModeUser} (h : Changed conf before user) :
    ModeNet.receive conf ⟨visible before, none⟩ (sendUmodeOut user before.umodes) =
      ⟨visible user, none⟩ := by
  have hmine : user.myConnect = true := h.mine
  refine receive_sent ?_ ?_ ?_ (visible_subset user)
  · intro f hsent
    rw [visible, Finset.mem_inter]
    exact and_iff_left (hsent.1 hmine)
  · intro f hnot
    by_cases hmask : f ∈ sendmask user
    · have hsame : f ∈ before.umodes ↔ f ∈ user.umodes := by
        by_contra hdiffer
        refine hnot ⟨fun _ => hmask, ?_⟩
        constructor
        · exact fun hold hnew => hdiffer (iff_of_true hold hnew)
        · exact fun hnew => by_contra fun hold => hdiffer (iff_of_false hold hnew)
      have hsend : f ∈ SEND_UMODES := by
        unfold sendmask at hmask
        split at hmask
        · exact Finset.mem_of_mem_erase hmask
        · exact hmask
      rw [visible, visible, Finset.mem_inter, Finset.mem_inter, hsame]
      refine and_congr_right fun hin => iff_of_true ?_ hmask
      unfold sendmask
      split
      · rename_i hwas
        refine Finset.mem_erase.mpr ⟨?_, hsend⟩
        rintro rfl
        cases hyes : user.isOperHiddenAdmin with
        | true => simp [sendmask, hyes] at hmask
        | false => exact h.shown hwas hyes hin
      · exact hsend
    · refine iff_of_false (fun hold => hmask ?_) (fun hnew => hmask (Finset.mem_inter.mp hnew).2)
      -- the admin flag of an admin who is hidden now
      have hsend := visible_subset before hold
      obtain ⟨hin, hwas⟩ := Finset.mem_inter.mp hold
      unfold sendmask at hmask ⊢
      split at hmask
      · rename_i hyes
        rw [if_pos hyes]
        refine Finset.mem_erase.mpr ⟨?_, hsend⟩
        rintro rfl
        rcases h.hidden hyes with hhidden | hnone
        · simp [sendmask, hhidden] at hwas
        · exact hnone hin
      · exact absurd hsend hmask
  · intro hsent hout f hf
    have hnew : .oper ∉ user.umodes := by
      intro hin
      exact hout (Finset.mem_inter.mpr ⟨hin, hsent.1 hmine⟩)
    have hold : .oper ∈ before.umodes := hsent.2.mpr hnew
    have hin := (Finset.mem_inter.mp hf).1
    refine ⟨?_, h.deoper hold hnew f hin⟩
    rintro rfl
    exact h.admin hnew hin

theorem receive_relayed {conf : UmodeConf} {before user : ModeUser} (h : Changed conf before user) :
    ModeNet.receive conf ⟨visible before, none⟩
        (sendUmodeOut ⟨visible user, none⟩ (visible before)) = ⟨visible user, none⟩ := by
  refine receive_sent (fun f _ => Iff.rfl) ?_ ?_ (visible_subset user)
  · intro f hnot
    by_contra hdiffer
    refine hnot ⟨nofun, ?_⟩
    constructor
    · exact fun hold hnew => hdiffer (iff_of_true hold hnew)
    · exact fun hnew => by_contra fun hold => hdiffer (iff_of_false hold hnew)
  · intro hsent hout f hf
    have hwas : .oper ∈ visible before := hsent.2.mpr hout
    have hold : .oper ∈ before.umodes := (Finset.mem_inter.mp hwas).1
    have hnew : .oper ∉ user.umodes := by
      intro hin
      have hmask : .oper ∈ sendmask user := by
        unfold sendmask
        split <;> decide
      exact hout (Finset.mem_inter.mpr ⟨hin, hmask⟩)
    have hin := (Finset.mem_inter.mp hf).1
    refine ⟨?_, h.deoper hold hnew f hin⟩
    rintro rfl
    exact h.admin hnew hin

namespace ModeNet

/-- The other servers know what they should of the user. -/
structure Agree (s : ModeNet) : Prop where
  owned : Owned s.me
  other : ∀ user, s.other = some user → user = ⟨visible s.me, none⟩
  third : ∀ user, s.third = some user → user = ⟨visible s.me, none⟩ ∧ s.other.isSome = true

theorem clientFromServer_sendnickTS {user : ModeUser} (h : user.myConnect = true) :
    clientFromServer (sendnickTS user) = ⟨visible user, none⟩ := by
  rw [sendnickTS, clientFromServer_sendUmode]
  refine ModeUser.ext (Finset.ext fun f => ?_) rfl
  simp only [Finset.mem_filter, visible, Finset.mem_inter, h, true_imp_iff]
  refine ⟨fun hf => hf.2, fun hf => ⟨?_, hf⟩⟩
  exact visible_subset user (Finset.mem_inter.mpr hf)

theorem clientFromServer_remote {umodes mask : Finset UMode} (h : umodes ⊆ SEND_UMODES) :
    clientFromServer (introText (sendUmode ⟨umodes, none⟩ ∅ mask)) = ⟨umodes, none⟩ := by
  rw [clientFromServer_sendUmode]
  refine ModeUser.ext (Finset.ext fun f => ?_) rfl
  simp only [Finset.mem_filter, ModeUser.myConnect, Option.isSome_none, Bool.false_eq_true,
    false_imp_iff, and_true]
  exact ⟨fun hf => hf.2, fun hf => ⟨h hf, hf⟩⟩

theorem Agree.introduce {s : ModeNet} {parv4 : CStr} (h : Owned s.me)
    (htext : clientFromServer parv4 = ⟨visible s.me, none⟩) : (s.introduce parv4).Agree where
  owned := h
  other user huser := by
    change user = ⟨visible s.me, none⟩
    rw [← htext]
    exact (Option.some.inj huser).symm
  third user huser := by
    refine ⟨?_, rfl⟩
    simp only [ModeNet.introduce] at huser
    split at huser
    · rw [← Option.some.inj huser, htext]
      exact clientFromServer_remote (visible_subset _)
    · cases huser

theorem Agree.spread {conf : UmodeConf} {s : ModeNet} (h : s.Agree) {me : ModeUser}
    (hchanged : Changed conf s.me me) :
    (spread conf { s with me := me } (sendUmodeOut me s.me.umodes)).Agree := by
  unfold ModeNet.spread
  cases hother : s.other with
  | none =>
    refine ⟨hchanged.toOwned, fun user huser => ?_, fun user huser => ?_⟩
    · cases huser
    · have := (h.third user huser).2
      rw [hother] at this
      cases this
  | some known =>
    have hknown := h.other known hother
    subst hknown
    have hreceived := receive_changed hchanged
    refine ⟨hchanged.toOwned, fun user huser => ?_, fun user huser => ⟨?_, rfl⟩⟩
    · rw [← Option.some.inj huser]
      exact hreceived
    · obtain ⟨t, ht, rfl⟩ := Option.map_eq_some_iff.mp huser
      obtain ⟨rfl, -⟩ := h.third t ht
      simp only [hreceived]
      by_cases hempty : sendUmodeOut me s.me.umodes = []
      · -- nothing to tell: what the servers know has not changed
        rw [if_pos hempty, receive, if_pos rfl, ← hreceived, hempty, receive, if_pos rfl]
      · rw [if_neg hempty]
        exact receive_relayed hchanged

theorem agree_start (invisibleOnConnect other third : Bool) :
    (start invisibleOnConnect other third).Agree := by
  have howned : Owned ⟨if invisibleOnConnect then {.invisible} else ∅, some {}⟩ := by
    cases invisibleOnConnect
    · exact ⟨rfl, fun _ => rfl, fun _ => by decide⟩
    · exact ⟨rfl, fun _ => rfl, fun _ => by decide⟩
  unfold start
  cases other with
  | false => exact ⟨howned, nofun, nofun⟩
  | true =>
    refine Agree.introduce howned ?_
    have hmask : ∀ user : ModeUser, user.operflags = some {} →
        introduceClient user = sendnickTS user := by
      intro user hnone
      have hseen : user.isOperHiddenAdmin = false := by simp [ModeUser.isOperHiddenAdmin, hnone]
      simp only [introduceClient, sendnickTS, sendmask, hseen, Bool.false_eq_true, if_false]
    rw [hmask _ rfl]
    exact clientFromServer_sendnickTS rfl

theorem Agree.step {conf : UmodeConf} {s : ModeNet} (h : s.Agree) (op : ModeOp) :
    (s.step conf op).Agree := by
  cases op with
  | mode modes => exact h.spread (changed_setUserMode conf h.owned modes)
  | operUp port =>
    by_cases hoper : s.me.isOper = true
    · rw [ModeNet.step, if_pos hoper]
      exact h
    · rw [ModeNet.step, if_neg hoper]
      exact h.spread (changed_operUp conf h.owned (by simpa [ModeUser.isOper] using hoper) port)
  | linkOther =>
    by_cases hup : s.other.isSome = true
    · rw [ModeNet.step, if_pos hup]
      exact h
    · rw [ModeNet.step, if_neg hup]
      exact Agree.introduce h.owned (clientFromServer_sendnickTS h.owned.mine)
  | linkThird =>
    by_cases hup : s.thirdLinked = true
    · rw [ModeNet.step, if_pos hup]
      exact h
    · rw [ModeNet.step, if_neg hup]
      refine ⟨h.owned, h.other, fun user huser => ?_⟩
      obtain ⟨known, hknown, rfl⟩ := Option.map_eq_some_iff.mp huser
      have heq := h.other known hknown
      subst heq
      refine ⟨clientFromServer_remote (visible_subset _), ?_⟩
      change s.other.isSome = true
      rw [hknown]
      rfl
  | splitOther => exact ⟨h.owned, nofun, nofun⟩
  | splitThird => exact ⟨h.owned, h.other, nofun⟩

/-- In every run of changes of the modes of a user, while links come up and break, the servers
that know the user agree with its own on the modes in `SEND_UMODES`, but for the admin flag of
a hidden admin. -/
theorem umodes_agree (conf : UmodeConf) (invisibleOnConnect other third : Bool) (ops : List ModeOp)
    :
    let s := Run.exec (step conf) (start invisibleOnConnect other third) ops
    ∀ user, s.other = some user ∨ s.third = some user → ∀ f ∈ SEND_UMODES,
      ¬(f = .admin ∧ s.me.isOperHiddenAdmin = true) → (f ∈ user.umodes ↔ f ∈ s.me.umodes) := by
  intro s user huser f hsend hshown
  have hagree : s.Agree :=
    Run.inv_exec (fun s op h _ => h.step op) (agree_start invisibleOnConnect other third)
      (Run.guarded_true _ ops)
  have heq : user = ⟨visible s.me, none⟩ := by
    rcases huser with huser | huser
    · exact hagree.other user huser
    · exact (hagree.third user huser).1
  have hmask : f ∈ sendmask s.me := by
    unfold sendmask
    split
    · rename_i hyes
      exact Finset.mem_erase.mpr ⟨fun hadmin => hshown ⟨hadmin, hyes⟩, hsend⟩
    · exact hsend
  rw [heq, visible, Finset.mem_inter]
  exact and_iff_left hmask

end ModeNet

end Ircd
