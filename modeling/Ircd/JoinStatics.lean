import Ircd.FinalMode
import Ircd.JoinOrder

/-!
The static variables of `m_join.c`, which outlive the command that filled them:
`targets` and `join_0`, which a JOIN of a local client leaves for a `JOIN 0` of a
server, and `parabuf`, which one mode line leaves for the next.

- `remote_join_zero_iff`: when `JOIN 0` of a server takes the client off all its
  channels, and when it does not matter which JOIN came before.
- `mode_lines_own_iff`: when the mode lines of a run are about their own channel.
-/

namespace Ircd

/-- Where `do_join_0` sends a PART. -/
inductive PartTo where
  | ts6Servers
  | otherServers
  | members
  deriving DecidableEq, Repr

/-- A line of `do_join_0`. -/
structure PartLine where
  dest : PartTo
  ch : Nat
  text : CStr
  deriving DecidableEq, Repr

namespace MemberState

variable (s : MemberState)

/-! ### JOIN 0 of a server -/

/-- The lines when a client leaves a channel. -/
def partLines (source : Cid) (ch : Nat) (c : ChannelData) : List PartLine :=
  let x := s.clients source
  [⟨.ts6Servers, ch, ':' :: x.ID ++ " PART ".toList ++ c.chname⟩,
    ⟨.otherServers, ch, ':' :: x.name ++ " PART ".toList ++ c.chname⟩,
    ⟨.members, ch, ':' :: x.name ++ '!' :: x.username ++ '@' :: x.host ++ " PART ".toList ++
      c.chname⟩]

/-- The test of `do_join_0`: the channel does not stand behind the last 0. -/
def goesBefore0 (ch : Nat) : Bool := s.join0.any fun j => s.isTarget ch < j

/-- The loop body of `do_join_0` with its lines. -/
def leaveLines (source : Cid) (out : MemberState × List PartLine) (m : Nat) :
    MemberState × List PartLine :=
  let s := out.1
  match s.member m with
  | none => out
  | some ms =>
    if s.goesBefore0 ms.chptr then
      (s.removeUserFromChannel m, out.2 ++ match s.chans ms.chptr with
        | none => []
        | some c => s.partLines source ms.chptr c)
    else out

/-- `do_join_0` with its lines. -/
def doJoin0Lines (source : Cid) : MemberState × List PartLine :=
  (s.channel source).foldl (leaveLines source) (s, [])

theorem doJoin0Lines_fst (source : Cid) : (s.doJoin0Lines source).1 = s.doJoin0 source := by
  have hfold : ∀ (l : List Nat) (out : MemberState × List PartLine),
      (l.foldl (leaveLines source) out).1 = l.foldl leaveIfBefore0 out.1 := by
    intro l
    induction l with
    | nil => exact fun _ => rfl
    | cons m l ih =>
      intro out
      rw [List.foldl_cons, List.foldl_cons, ih]
      congr 1
      simp only [leaveLines, leaveIfBefore0]
      cases out.1.member m with
      | none => rfl
      | some ms =>
        change (if out.1.goesBefore0 ms.chptr = true then _ else out).1 =
          if out.1.goesBefore0 ms.chptr = true then _ else _
        split <;> rfl
  exact hfold (s.channel source) (s, [])

/-- The state without what the last JOIN of a local client left. -/
def forget : MemberState := { s with targets := [], join0 := none }

/-- The client is on no channel any more, and the others are where they were. -/
def OnlyLeaves (source : Cid) (s' : MemberState) : Prop :=
  ∀ who ch, s'.IsOn who ch ↔ s.IsOn who ch ∧ who ≠ source

/-- The two states come out the same, with the same lines. -/
def SameOutcome (source : Cid) (t : MemberState) : Prop :=
  (s.doJoin0Lines source).1.forget = (t.doJoin0Lines source).1.forget ∧
    (s.doJoin0Lines source).2 = (t.doJoin0Lines source).2

variable {s} {t : MemberState} {source : Cid}

theorem onlyLeaves_iff (hs : s.Tabled) : s.OnlyLeaves source (s.doJoin0 source) ↔
    ∀ ch, s.IsOn source ch → s.goesBefore0 ch = true := by
  have hleaves := leaves_doJoin0 hs source
  constructor
  · rintro hout ch ⟨m, x, hx, hclient, rfl⟩
    by_contra hstays
    have hstill : (s.doJoin0 source).member m = some x :=
      (hleaves.member m x).mpr ⟨hx, fun h => hstays h.2⟩
    exact ((hout source x.chptr).mp ⟨m, x, hstill, hclient, rfl⟩).2 rfl
  · intro hall who ch
    constructor
    · rintro ⟨m, x, hx, rfl, rfl⟩
      obtain ⟨hold, hnot⟩ := (hleaves.member m x).mp hx
      refine ⟨⟨m, x, hold, rfl, rfl⟩, ?_⟩
      rintro rfl
      exact hnot ⟨hs.mem_channel.mpr ⟨x, hold, rfl⟩, hall _ ⟨m, x, hold, rfl, rfl⟩⟩
    · rintro ⟨⟨m, x, hx, rfl, rfl⟩, hne⟩
      refine ⟨m, x, (hleaves.member m x).mpr ⟨hx, fun hleft => hne ?_⟩, rfl, rfl⟩
      obtain ⟨y, hy, hclient⟩ := hs.mem_channel.mp hleft.1
      rw [hx] at hy
      cases hy
      exact hclient

theorem forget_fields (h : s.forget = t.forget) : s.member = t.member ∧ s.chans = t.chans ∧
    s.clients = t.clients ∧ s.channel = t.channel := by
  have hmember : s.forget.member = t.forget.member := by rw [h]
  have hchans : s.forget.chans = t.forget.chans := by rw [h]
  have hclients : s.forget.clients = t.forget.clients := by rw [h]
  have hchannel : s.forget.channel = t.forget.channel := by rw [h]
  exact ⟨hmember, hchans, hclients, hchannel⟩

theorem forget_destroyChannel (s : MemberState) (ch : Nat) :
    (s.destroyChannel ch).forget = s.forget.destroyChannel ch := by
  unfold destroyChannel
  cases h : s.chans ch with
  | none => simp [forget, h]
  | some c => simp [forget, h]

theorem forget_removeUserFromChannel (s : MemberState) (m : Nat) :
    (s.removeUserFromChannel m).forget = s.forget.removeUserFromChannel m := by
  have hmember : s.forget.member m = s.member m := rfl
  unfold removeUserFromChannel
  rw [hmember]
  cases s.member m with
  | none => rfl
  | some ms =>
    have hmembers : (s.forget.unlinkMember m ms).members = (s.unlinkMember m ms).members := rfl
    simp only [hmembers]
    split
    · exact forget_destroyChannel _ _
    · rfl

theorem goesBefore0_removeUserFromChannel {m : Nat} {x : Member} (hx : s.member m = some x)
    (ch : Nat) : (s.removeUserFromChannel m).goesBefore0 ch = s.goesBefore0 ch := by
  obtain ⟨-, -, -, htargets, hjoin0, -⟩ := removeUserFromChannel_eq hx
  rw [goesBefore0, goesBefore0, hjoin0, isTarget, isTarget, htargets]

theorem leaveLines_same {l : List Nat} (hsame : s.forget = t.forget)
    (hagree : ∀ m ∈ l, ∀ x, s.member m = some x → s.goesBefore0 x.chptr = t.goesBefore0 x.chptr)
    (lines : List PartLine) :
    (l.foldl (leaveLines source) (s, lines)).1.forget =
        (l.foldl (leaveLines source) (t, lines)).1.forget ∧
      (l.foldl (leaveLines source) (s, lines)).2 = (l.foldl (leaveLines source) (t, lines)).2 := by
  induction l generalizing s t lines with
  | nil => exact ⟨hsame, rfl⟩
  | cons m l ih =>
    obtain ⟨hmember, hchans, hclients, -⟩ := forget_fields hsame
    rw [List.foldl_cons, List.foldl_cons]
    cases hx : s.member m with
    | none =>
      have hone : leaveLines source (s, lines) m = (s, lines) := by simp [leaveLines, hx]
      have htwo : leaveLines source (t, lines) m = (t, lines) := by
        simp [leaveLines, ← hmember, hx]
      rw [hone, htwo]
      exact ih hsame (fun n hn => hagree n (List.mem_cons_of_mem _ hn)) lines
    | some x =>
      have hgoes := hagree m List.mem_cons_self x hx
      have hxt : t.member m = some x := by rw [← hmember, hx]
      have hlines : ∀ c, s.partLines source x.chptr c = t.partLines source x.chptr c := by
        intro c
        rw [partLines, partLines, hclients]
      cases hleaves : s.goesBefore0 x.chptr with
      | false =>
        have hone : leaveLines source (s, lines) m = (s, lines) := by
          simp [leaveLines, hx, hleaves]
        have htwo : leaveLines source (t, lines) m = (t, lines) := by
          simp [leaveLines, hxt, ← hgoes, hleaves]
        rw [hone, htwo]
        exact ih hsame (fun n hn => hagree n (List.mem_cons_of_mem _ hn)) lines
      | true =>
        have hone : leaveLines source (s, lines) m = (s.removeUserFromChannel m,
            lines ++ match s.chans x.chptr with
              | none => []
              | some c => s.partLines source x.chptr c) := by
          simp [leaveLines, hx, hleaves]
        have htwo : leaveLines source (t, lines) m = (t.removeUserFromChannel m,
            lines ++ match s.chans x.chptr with
              | none => []
              | some c => s.partLines source x.chptr c) := by
          simp [leaveLines, hxt, ← hchans, hlines, ← hgoes, hleaves]
        rw [hone, htwo]
        refine ih (by rw [forget_removeUserFromChannel, forget_removeUserFromChannel, hsame])
          (fun n hn y hy => ?_) _
        rw [(removeUserFromChannel_eq hx).1] at hy
        rw [goesBefore0_removeUserFromChannel hx, goesBefore0_removeUserFromChannel hxt]
        exact hagree n (List.mem_cons_of_mem _ hn) y (of_update_none hy).2

theorem sameOutcome_iff (hs : s.Tabled) (ht : t.Tabled) (hsame : s.forget = t.forget) :
    s.SameOutcome source t ↔
      ∀ ch, s.IsOn source ch → s.goesBefore0 ch = t.goesBefore0 ch := by
  obtain ⟨hmember, -, -, hlists⟩ := forget_fields hsame
  have hchannel : s.channel source = t.channel source := congrFun hlists source
  constructor
  · rintro ⟨hstate, -⟩ ch ⟨m, x, hx, hclient, rfl⟩
    rw [doJoin0Lines_fst, doJoin0Lines_fst] at hstate
    have hafter : (s.doJoin0 source).member = (t.doJoin0 source).member :=
      (forget_fields hstate).1
    have hleft := (leaves_doJoin0 hs source).member m x
    have hleft' := (leaves_doJoin0 ht source).member m x
    have hmem := hs.mem_channel.mpr ⟨x, hx, hclient⟩
    rw [hafter, hleft', ← hmember, ← hchannel] at hleft
    have hiff : t.goesBefore0 x.chptr = true ↔ s.goesBefore0 x.chptr = true := by
      simpa [hx, hmem, goesBefore0] using hleft
    exact (Bool.eq_iff_iff.mpr hiff).symm
  · intro hagree
    rw [SameOutcome, doJoin0Lines, doJoin0Lines, ← hchannel]
    refine leaveLines_same hsame (fun m hm x hx => ?_) []
    obtain ⟨y, hy, hclient⟩ := hs.mem_channel.mp hm
    rw [hx] at hy
    cases hy
    exact hagree x.chptr ⟨m, x, hx, hclient, rfl⟩

def remoteUser : Client := { (default : Client) with
  status := .client, id := "1ABAAAAAA".toList, name := "bob".toList }

/-- A client of another server is put on a channel, and a local client is there. -/
def remoteOnChannel : List MemberOp :=
  [.introduce remoteUser, .introduce localUser,
    .remoteJoin quietEnv 0 ["5".toList, "#a".toList, "+".toList]]

/-- The same, and the local client sends a `JOIN 0`. -/
def remoteAfterZero : List MemberOp := remoteOnChannel ++ [.join quietEnv 1 [['0']]]

theorem forget_remoteOnChannel : (Run.exec step (start default 0) remoteOnChannel).forget =
    (Run.exec step (start default 0) remoteAfterZero).forget := by
  rfl

end MemberState

/-- What `ms_join` makes of the modes of a channel. -/
structure ModeStep where
  ch : Nat
  chname : CStr
  rule : TsRule
  old : Mode
  mode : Mode
  deriving DecidableEq

/-- The line with what `set_final_mode` wrote, if it wrote a letter. -/
def ModeStep.line (m : ModeStep) (servername : CStr) (out : CStr × CStr) : Option CStr :=
  if out.1 = [] then none
  else some (':' :: servername ++ " MODE ".toList ++ m.chname ++ ' ' :: out.1 ++ ' ' :: out.2)

/-- The modes before and after `ms_join`, when it comes to `set_final_mode`. -/
def MemberState.joinModes (s : MemberState) (env : MemberEnv) (parv : List CStr) :
    Option ModeStep :=
  match parv with
  | [['0']] => none
  | ts :: chname :: modes :: rest =>
    if chname.head? = some '&' ∨ !checkChannelName chname then none
    else
      match readJoinModes modes Mode.zero rest with
      | none => none
      | some mode =>
        match s.getOrCreateChannel env.now chname with
        | none => none
        | some (s, ch, isnew) =>
          (s.chans ch).map fun c =>
            let rule := tsRule isnew (effectiveTs s.cf (strtol ts) c.channelts) c.channelts
            ⟨ch, c.chname, rule, c.mode, keptMode rule mode c.mode⟩
  | _ => none

/-- The names that a mode line may come from. -/
structure ServerNames where
  me : CStr
  hideServers : Bool
  isHidden : Cid → Bool

/-- The server of the source as the members are shown it. -/
def ServerNames.servername (names : ServerNames) (s : MemberState) (source : Cid) : CStr :=
  if names.hideServers || names.isHidden source then names.me else (s.clients source).name

/-- The memberships with `parabuf` of `m_join.c`, which no JOIN of a local client and
no other command writes to. `remove_a_mode` has buffers of its own. -/
structure JoinServer where
  members : MemberState
  parabuf : CStr := []

namespace JoinServer

/-- The call of `set_final_mode` in a step. -/
def modeStep (s : JoinServer) : MemberOp → Option ModeStep
  | .remoteJoin env source parv =>
    if s.members.alive source ∧
        ((s.members.clients source).isClient ∨ (s.members.clients source).isServer) then
      s.members.joinModes env parv
    else none
  | _ => none

def step (s : JoinServer) (op : MemberOp) : JoinServer where
  members := s.members.step op
  parabuf :=
    match s.modeStep op with
    | none => s.parabuf
    | some m => (joinSetFinalMode s.parabuf m.mode m.old).2

/-- The mode line of a step to the local members. -/
def modeLine (names : ServerNames) (s : JoinServer) (op : MemberOp) : Option CStr :=
  match op with
  | .remoteJoin _ source _ =>
    (s.modeStep op).bind fun m =>
      m.line (names.servername s.members source) (joinSetFinalMode s.parabuf m.mode m.old)
  | _ => none

/-- The mode line of a JOIN that takes the stamp down is the one that the modes of
the channel before and after give. -/
def Own (names : ServerNames) (s : JoinServer) (op : MemberOp) : Prop :=
  ∀ env source parv, op = .remoteJoin env source parv → ∀ m, s.modeStep op = some m →
    m.rule.keepOurModes = false → s.modeLine names op =
      m.line (names.servername s.members source) (joinSetFinalMode [] m.mode m.old)

/-- A JOIN that takes the stamp down changes nothing, or changes the key or sets a
limit, or no key or limit has gone into a line so far. -/
def Clean (s : JoinServer) (op : MemberOp) : Prop :=
  ∀ m, s.modeStep op = some m → m.rule.keepOurModes = false →
    m.mode = m.old ∨ m.old.key ≠ m.mode.key ∨ (m.mode.limit ≠ 0 ∧ m.old.limit ≠ m.mode.limit) ∨
      s.parabuf = []

end JoinServer

/-! ### The text of the line -/

theorem writeChanges_eq_nil {dir : ModeDir} {cs : List (LetterChange CStr)} :
    writeChanges dir cs = [] ↔ cs = [] := by
  cases cs with
  | nil => simp [writeChanges]
  | cons c cs => simp [writeChanges]

theorem joinChanges_eq_nil {mode old : Mode} : joinChanges mode old = [] ↔ mode = old := by
  constructor
  · intro h
    simp only [joinChanges, List.append_eq_nil_iff] at h
    obtain ⟨hon, hoff, hlimitOff, hkeyOff, hlimitOn, hkeyOn⟩ := h
    have hall : ∀ f : SimpleMode, f ∈ sjoinFlags := by
      intro f
      cases f <;> decide
    have hmode : mode.mode = old.mode := by
      ext f
      rw [flagsOn, List.map_eq_nil_iff, List.filter_eq_nil_iff] at hon
      rw [flagsOff, List.map_eq_nil_iff, List.filter_eq_nil_iff] at hoff
      have hfon := hon f (hall f)
      have hfoff := hoff f (hall f)
      simp only [decide_eq_true_eq] at hfon hfoff
      tauto
    have hlimit := switched 0 mode.limit old.limit
    have hkey := switched [] mode.key old.key
    rw [if_neg (by simpa [limitOn] using hlimitOn), if_neg (by simpa [limitOff] using hlimitOff)]
      at hlimit
    rw [if_neg (by simpa [keyOn] using hkeyOn), if_neg (by simpa [keyOff] using hkeyOff)] at hkey
    obtain ⟨flags, limit, key⟩ := mode
    obtain ⟨flags', limit', key'⟩ := old
    simp_all
  · rintro rfl
    simp [joinChanges, flagsOn, flagsOff, limitOff, keyOff, limitOn, keyOn]

theorem ModeStep.line_own_iff (m : ModeStep) (servername parabuf : CStr) :
    m.line servername (joinSetFinalMode parabuf m.mode m.old) =
        m.line servername (joinSetFinalMode [] m.mode m.old) ↔
      m.mode = m.old ∨ m.old.key ≠ m.mode.key ∨
        (m.mode.limit ≠ 0 ∧ m.old.limit ≠ m.mode.limit) ∨ parabuf = [] := by
  have hnil : writeChanges .query (joinChanges m.mode m.old) = [] ↔ m.mode = m.old :=
    writeChanges_eq_nil.trans joinChanges_eq_nil
  have hparams : (m.old.key ≠ m.mode.key ∨ (m.mode.limit ≠ 0 ∧ m.old.limit ≠ m.mode.limit) ∨
      parabuf = []) ↔ finalParams m.mode m.old = [] → parabuf = [] := by
    rw [finalParams_eq_nil]
    tauto
  rw [joinSetFinalMode_eq, joinSetFinalMode_eq, hparams, line, line]
  simp only [hnil]
  by_cases hsame : m.mode = m.old
  · simp [hsame]
  · by_cases hfinal : finalParams m.mode m.old = []
    · simp [hsame, hfinal]
    · simp [hsame, hfinal]

namespace JoinServer

theorem own_iff_clean (names : ServerNames) (s : JoinServer) (op : MemberOp) :
    s.Own names op ↔ s.Clean op := by
  constructor
  · intro hown m hm hdrop
    cases op with
    | remoteJoin env source parv =>
      have hline := hown env source parv rfl m hm hdrop
      rw [modeLine] at hline
      simp only [hm, Option.bind_some] at hline
      exact (m.line_own_iff _ _).mp hline
    | _ => cases hm
  · rintro hclean env source parv rfl m hm hdrop
    rw [modeLine]
    simp only [hm, Option.bind_some]
    exact (m.line_own_iff _ _).mpr (hclean m hm hdrop)

/-- In which runs every mode line of a JOIN that takes the stamp down is about the
modes of its own channel alone. -/
theorem mode_lines_own_iff (names : ServerNames) (cf : Config) (key : Nat) (ops : List MemberOp) :
    Run.Guarded step (Own names) ⟨MemberState.start cf key, []⟩ ops ↔
      Run.Guarded step Clean ⟨MemberState.start cf key, []⟩ ops := by
  have hiff : ∀ (s : JoinServer) (op : MemberOp), True → (s.Own names op ↔ s.Clean op) :=
    fun s op _ => own_iff_clean names s op
  exact Run.guarded_iff hiff (fun _ _ _ _ => trivial) trivial

/-- A client of another server and two channels, the first with this mode string and
these parameters. -/
def twoChannels (modes : List CStr) : List MemberOp :=
  [.introduce MemberState.remoteUser,
    .remoteJoin MemberState.quietEnv 0 (["1000".toList, "#a".toList] ++ modes),
    .remoteJoin MemberState.quietEnv 0 ["1000".toList, "#b".toList, "+".toList]]

/-- A JOIN that takes the stamp of the second channel down. -/
def olderJoin : MemberOp :=
  .remoteJoin MemberState.quietEnv 0 ["500".toList, "#b".toList, "+n".toList]

/-- The mode line for the second channel goes on with the key of the first, so it is
no function of the modes of the second before and after. -/
theorem mode_line_tells_key : ¬ ∀ names : ServerNames, ∃ f : Mode → Mode → CStr × CStr,
    ∀ cf key ops env source parv m,
      let s := Run.exec step ⟨MemberState.start cf key, []⟩ ops
      s.modeStep (.remoteJoin env source parv) = some m → m.rule.keepOurModes = false →
        s.modeLine names (.remoteJoin env source parv) =
          m.line (names.servername s.members source) (f m.mode m.old) := by
  intro h
  obtain ⟨f, hf⟩ := h ⟨"me".toList, false, fun _ => false⟩
  have hstep : ∀ modes ∈ [["+k".toList, "geheim".toList], ["+".toList]],
      (Run.exec step ⟨MemberState.start default 0, []⟩ (twoChannels modes)).modeStep olderJoin =
        some ⟨1, "#b".toList, ⟨500, 500, false, true⟩, Mode.zero, ⟨{.noprivmsgs}, 0, []⟩⟩ := by
    decide +kernel
  have hkey : (Run.exec step ⟨MemberState.start default 0, []⟩
      (twoChannels ["+k".toList, "geheim".toList])).modeLine ⟨"me".toList, false, fun _ => false⟩
      olderJoin = some ":bob MODE #b +n geheim ".toList := by decide +kernel
  have hnone : (Run.exec step ⟨MemberState.start default 0, []⟩
      (twoChannels ["+".toList])).modeLine ⟨"me".toList, false, fun _ => false⟩
      olderJoin = some ":bob MODE #b +n ".toList := by decide +kernel
  have hname : ∀ modes ∈ [["+k".toList, "geheim".toList], ["+".toList]],
      ((Run.exec step ⟨MemberState.start default 0, []⟩ (twoChannels modes)).members.clients
        0).name = "bob".toList := by decide +kernel
  have hlines : ∀ modes ∈ [["+k".toList, "geheim".toList], ["+".toList]],
      (Run.exec step ⟨MemberState.start default 0, []⟩ (twoChannels modes)).modeLine
          ⟨"me".toList, false, fun _ => false⟩ olderJoin =
        (⟨1, "#b".toList, ⟨500, 500, false, true⟩, Mode.zero, ⟨{.noprivmsgs}, 0, []⟩⟩ :
          ModeStep).line "bob".toList (f ⟨{.noprivmsgs}, 0, []⟩ Mode.zero) := by
    intro modes hmodes
    rw [← hname modes hmodes]
    exact hf default 0 (twoChannels modes) MemberState.quietEnv 0
      ["500".toList, "#b".toList, "+n".toList] _ (hstep modes hmodes) rfl
  have hone := hlines ["+k".toList, "geheim".toList] List.mem_cons_self
  have htwo := hlines ["+".toList] (List.mem_cons_of_mem _ List.mem_cons_self)
  rw [← htwo, hnone, hkey] at hone
  exact absurd hone (by decide)

end JoinServer

end Ircd
