import Ircd.LazyRequests

/-!
Lines from a linked server and the parameters that its handlers use: `parse`, `handle_command`,
and `ms_encap`, which calls handlers as well; with `ms_tb` and `parse_knock_remote`.

A handler uses `parv[k]` by `arg`, which fails for a parameter that was not sent. The declared
minimum is checked by `handle_command` alone, and the minimum of TB is less than what `ms_tb`
uses (`params_supplied_iff`).
-/

namespace Ircd

/-! ### Messages -/

/-- The handlers in `msgtab`s. -/
inductive Handler where
  | mIgnore
  | msTb
  | msKnock
  | meKnock
  | msEncap
  | other
  deriving DecidableEq, Repr

/-- The messages: `tb_msgtab`, `knock_msgtab`, `encap_msgtab`, and others by their `parameters`
and whether there is a handler for ENCAP. -/
inductive Command where
  | tb
  | knock
  | encap
  | other (parameters : Nat) (byEncap : Bool)
  deriving DecidableEq, Repr

/-- `parameters`. -/
def Command.parameters : Command → Nat
  | .tb => 0
  | .knock => 2
  | .encap => 3
  | .other parameters _ => parameters

/-- `handlers[SERVER_HANDLER]`. -/
def Command.serverHandler : Command → Handler
  | .tb => .msTb
  | .knock => .msKnock
  | .encap => .msEncap
  | .other _ _ => .other

/-- `handlers[ENCAP_HANDLER]`. -/
def Command.encapHandler : Command → Option Handler
  | .tb => some .mIgnore
  | .knock => some .meKnock
  | .encap => some .mIgnore
  | .other _ byEncap => if byEncap then some .other else none

/-- A call of a handler; `parv` has `parc` entries, and a NULL behind them. -/
structure Call where
  command : Command
  handler : Handler
  parv : List CStr
  deriving DecidableEq, Repr

/-- What is read of a server; `findCommand` and `hashFindChannel` are given the names as they
are on the line. -/
structure PeerNet where
  me : Cid
  dir : Directory
  caps : Cid → Nat
  findCommand : CStr → Option Command
  hashFindChannel : CStr → Option TalkChannel

/-- The text of a parameter is used; one that was not sent is an error. -/
def arg (parv : List CStr) (k : Nat) : Except Nat CStr :=
  match parv[k]? with
  | some s => .ok s
  | none => .error k

/-- The parameter that was used without having been sent. -/
def missing {α : Type} : Except Nat α → Option Nat
  | .ok _ => none
  | .error k => some k

namespace PeerNet

variable (net : PeerNet) (link source : Cid) (parv : List CStr)

/-! ### Handlers -/

/-- What `ms_tb` does to the topic of a channel. -/
inductive TbAct where
  | ignored
  | freeTopic
  | setTopic (topic who : CStr) (topicts : Int)
  deriving DecidableEq, Repr

/-- `tb_topic`, as the number of the parameter. -/
def tbTopic : Nat := if parv.length = 5 then 4 else 3

/-- `set_topic`. A topic that is NULL is an empty one to `set_channel_topic`. -/
def setTbTopic (topicts : Int) : Except Nat TbAct :=
  match parv[tbTopic parv]? with
  | none | some [] => .ok .freeTopic
  | some topic =>
    if parv.length = 5 then (arg parv 3).map fun who => .setTopic topic who topicts
    else .ok (.setTopic topic (net.dir.clients source).name topicts)

/-- `ms_tb` for a channel that is there. -/
def tbOn (chptr : TalkChannel) (topicts : Int) : Except Nat TbAct :=
  match chptr.topic with
  | none => net.setTbTopic source parv topicts
  | some old =>
    if topicts < chptr.topicTime then do
      let topic ← arg parv (tbTopic parv)
      if old.topic = topic then return .ignored
      else net.setTbTopic source parv topicts
    else .ok .ignored

/-- `ms_tb`. -/
def msTb : Except Nat TbAct := do
  let topictsStr ← arg parv 2
  let channel ← arg parv 1
  match net.hashFindChannel channel with
  | none => return .ignored
  | some chptr => net.tbOn source parv chptr (strtol topictsStr)

/-- What `parse_knock_remote` does: nothing, or `send_knock` with a name, and the key if it is
not NULL. -/
inductive KnockAct where
  | ignored
  | sendKnock (name : CStr) (key : Option CStr) (prop : Bool)
  deriving DecidableEq, Repr

/-- One does not get in without more ado: `+i`, `+k` or a limit that is reached. -/
def isClosed (chptr : Channel) : Bool :=
  .inviteonly ∈ chptr.mode.mode || chptr.mode.key ≠ [] ||
    (chptr.mode.limit ≠ 0 && chptr.mode.limit.val ≤ chptr.members.length)

/-- `parse_knock_remote`. -/
def parseKnockRemote (prop : Bool) : Except Nat KnockAct := do
  let name := cutAtComma (← arg parv 1)
  match if isChanPrefix name then net.hashFindChannel name else none with
  | none => return .ignored
  | some chptr =>
    if (findChannelLink net.dir.clients source chptr.toChannel).isSome then return .ignored
    else if !isClosed chptr.toChannel then return .ignored
    -- `parv[parc]` is NULL, and `send_knock` asks for that
    else return .sendKnock name parv[2]? prop

/-- The loop of `ms_encap` at parameter `i`, with what is in the buffer; `none` if the rest does
not fit. -/
def encapCopy : Nat → Nat → CStr → Except Nat (Option CStr)
  | 0, _, buffer => .ok (some buffer)
  | n + 1, i, buffer => do
    let s ← arg parv i
    if IRCD_BUFSIZE ≤ buffer.length + (s.length + 1) then return none
    else encapCopy n (i + 1) (buffer ++ (s ++ [' ']))

def encapLast (buffer last : CStr) : CStr :=
  let all := buffer ++ if parv.length = 3 then last else ':' :: last
  if IRCD_BUFSIZE ≤ buffer.length + last.length then all.take (IRCD_BUFSIZE - 1) else all

/-- The handler that `ms_encap` calls, with the parameters moved by two. -/
def encapCall (mask sub : CStr) : Option Call :=
  if matchMask mask (net.dir.clients net.me).name then do
    let command ← net.findCommand sub
    let handler ← command.encapHandler
    return ⟨command, handler, parv.take 1 ++ parv.drop 3⟩
  else none

/-- `ms_encap`: the line for other servers, and the handler that is called. It has at least
three parameters, as `handle_command` sees to. -/
def msEncap : Except Nat (Option (CStr × Option Call)) := do
  match ← encapCopy parv (parv.length - 2) 1 [] with
  | none => return none
  | some buffer =>
    let last ← arg parv (parv.length - 1)
    let mask ← arg parv 1
    let sub ← arg parv 2
    return some (encapLast parv buffer last, net.encapCall parv mask sub)

/-- What a handler uses, and the call that it makes itself. -/
def handle (call : Call) : Except Nat (Option Call) :=
  match call.handler with
  | .msTb => (net.msTb source call.parv).map fun _ => none
  | .msKnock =>
    if (net.dir.clients source).isClient then
      (net.parseKnockRemote source call.parv true).map fun _ => none
    else .ok none
  | .meKnock =>
    if (net.dir.clients source).isClient then
      (net.parseKnockRemote source call.parv false).map fun _ => none
    else .ok none
  | .msEncap => (net.msEncap call.parv).map fun result => result.bind Prod.snd
  | .mIgnore | .other => .ok none

/-! ### Dispatch -/

/-- A call, and the parameter that was used without having been sent, if there was one. -/
structure Served where
  call : Call
  missing : Option Nat
  deriving DecidableEq, Repr

/-- A call is made, and the one that comes of it. -/
def run (call : Call) : List Served :=
  match net.handle source call with
  | .error k => [⟨call, some k⟩]
  | .ok none => [⟨call, none⟩]
  | .ok (some inner) => [⟨call, none⟩, ⟨inner, missing (net.handle source inner)⟩]

/-- `handle_command` for a server; it is dropped if it has not sent enough. -/
def handleCommand (command : Command) : List Served :=
  if parv.length < command.parameters then []
  else net.run source ⟨command, command.serverHandler, parv⟩

/-- The sender of a line, and what follows. Without a blank the text is both. -/
def readSender (pbuffer : CStr) : Option CStr × CStr :=
  match pbuffer.dropWhile (· == ' ') with
  | ':' :: ch =>
    match strchr ' ' ch with
    | some (sender, rest) => (some sender, rest)
    | none => (some ch, ch)
  | ch => (none, ch)

/-- `from`, if it is known and behind the link. -/
def sourceOf : Option CStr → Option Cid
  | none | some [] => some link
  | some sender =>
    ((findSender net.dir link sender).orElse fun _ =>
      -- a server under a mask
      if net.caps link &&& CAP_TS6 ≠ 0 && (net.dir.clients link).name.head? == some '*' &&
          startsWithDigit sender && sender.length == 3 then some link
      else none).filter fun x => (net.dir.clients x).from == link

def isNumeric (ch : CStr) : Bool :=
  ch[3]? == some ' ' && (ch.take 3).all isDigit

/-- The command and its parameters, from `parv[0]` on; `parc` is 0 if no blank follows the
command. -/
def readCommand (ch : CStr) : Option (Command × List CStr) :=
  match strchr ' ' ch with
  | some (cmd, args) =>
    (net.findCommand cmd).map (·, (net.dir.clients source).name :: stringToArray args)
  | none => (net.findCommand ch).map (·, [])

/-- What `parse` makes of a line: the source, the command and the parameters. -/
def parse (pbuffer : CStr) : Option (Cid × Command × List CStr) := do
  let (sender, rest) := readSender pbuffer
  let source ← net.sourceOf link sender
  let ch := rest.dropWhile (· == ' ')
  if ch = [] ∨ isNumeric ch then none
  else return (source, ← net.readCommand source ch)

/-- The handlers that are called for a line. -/
def receive (pbuffer : CStr) : List Served :=
  match net.parse link pbuffer with
  | none => []
  | some (source, command, parv) => net.handleCommand source parv command

end PeerNet

/-! ### What the handlers use -/

section Missing

variable {α β : Type} {x : Except Nat α} {parv : List CStr} {k : Nat}

theorem missing_map (f : α → β) : missing (x.map f) = missing x := by cases x <;> rfl

theorem arg_of_lt (h : k < parv.length) : arg parv k = .ok parv[k] := by
  rw [arg, List.getElem?_eq_getElem h]

theorem missing_arg_bind (f : CStr → Except Nat α) :
    missing (arg parv k >>= f) = none ↔ ∃ s, parv[k]? = some s ∧ missing (f s) = none := by
  unfold arg
  cases parv[k]? with
  | none => exact iff_of_false (fun h => by cases h) fun ⟨s, h, _⟩ => by cases h
  | some s =>
    refine ⟨fun h => ⟨s, rfl, h⟩, ?_⟩
    rintro ⟨s', heq, h⟩
    cases heq
    exact h

end Missing

namespace PeerNet

variable {net : PeerNet} {link source : Cid} {parv : List CStr}

theorem missing_setTbTopic (topicts : Int) :
    missing (net.setTbTopic source parv topicts) = none := by
  unfold setTbTopic
  split
  · rfl
  · rfl
  · split
    · rename_i hlen
      rw [arg_of_lt (by omega)]
      rfl
    · rfl

/-- The text of a TB is there, or it is not looked at: there is no such channel, or the channel
has an older topic. -/
def TbSupplied (net : PeerNet) (parv : List CStr) : Prop :=
  2 < parv.length ∧ ∀ name topicts chptr old, parv[1]? = some name → parv[2]? = some topicts →
    net.hashFindChannel name = some chptr → chptr.topic = some old →
    strtol topicts < chptr.topicTime → 3 < parv.length

theorem tbTopic_lt_iff : tbTopic parv < parv.length ↔ 3 < parv.length := by
  unfold tbTopic
  split <;> omega

theorem missing_tbOn_iff {chptr : TalkChannel} {topicts : Int} :
    missing (net.tbOn source parv chptr topicts) = none ↔
      ∀ old, chptr.topic = some old → topicts < chptr.topicTime → 3 < parv.length := by
  unfold tbOn
  cases chptr.topic with
  | none => exact iff_of_true (missing_setTbTopic _) fun old h => by cases h
  | some old =>
    by_cases holder : topicts < chptr.topicTime
    · dsimp only
      rw [if_pos holder, missing_arg_bind]
      constructor
      · rintro ⟨s, hs, -⟩ _ _ _
        exact tbTopic_lt_iff.mp (List.getElem?_eq_some_iff.mp hs).1
      · intro h
        have hlt := tbTopic_lt_iff.mpr (h old rfl holder)
        refine ⟨_, List.getElem?_eq_getElem hlt, ?_⟩
        split
        · rfl
        · exact missing_setTbTopic _
    · dsimp only
      rw [if_neg holder]
      exact iff_of_true rfl fun _ _ hlt => absurd hlt holder

theorem missing_msTb_iff : missing (net.msTb source parv) = none ↔ net.TbSupplied parv := by
  unfold msTb TbSupplied
  rw [missing_arg_bind]
  by_cases hlen : 2 < parv.length
  swap
  · refine iff_of_false ?_ fun h => hlen h.1
    rintro ⟨s, hs, -⟩
    exact hlen (List.getElem?_eq_some_iff.mp hs).1
  have hone : 1 < parv.length := by omega
  rw [and_iff_right hlen, List.getElem?_eq_getElem hlen]
  simp only [Option.some.injEq, exists_eq_left', missing_arg_bind, List.getElem?_eq_getElem hone]
  cases hfind : net.hashFindChannel parv[1] with
  | none =>
    refine iff_of_true rfl fun name topicts chptr old hname _ hfind' => ?_
    rw [← hname, hfind] at hfind'
    cases hfind'
  | some chptr =>
    dsimp only
    rw [missing_tbOn_iff]
    constructor
    · rintro h name topicts chptr' old rfl rfl hfind' hold holder
      rw [hfind] at hfind'
      cases hfind'
      exact h old hold holder
    · exact fun h old hold holder => h _ _ chptr old rfl rfl hfind hold holder

theorem missing_parseKnockRemote (prop : Bool) :
    missing (net.parseKnockRemote source parv prop) = none ↔ 1 < parv.length := by
  unfold parseKnockRemote
  rw [missing_arg_bind]
  constructor
  · rintro ⟨s, hs, -⟩
    exact (List.getElem?_eq_some_iff.mp hs).1
  · intro hlen
    refine ⟨_, List.getElem?_eq_getElem hlen, ?_⟩
    dsimp only
    split
    · rfl
    · split
      · rfl
      · split <;> rfl

theorem encapCopy_eq {n i : Nat} {buffer : CStr} (hn : i + n ≤ parv.length)
    (hbuffer : buffer.length < IRCD_BUFSIZE) : encapCopy parv n i buffer =
      .ok (if (buffer ++ words ((parv.drop i).take n)).length < IRCD_BUFSIZE then
        some (buffer ++ words ((parv.drop i).take n)) else none) := by
  induction n generalizing i buffer with
  | zero => simp [encapCopy, hbuffer]
  | succ n ih =>
    have hi : i < parv.length := by omega
    have hslice : (parv.drop i).take (n + 1) = parv[i] :: (parv.drop (i + 1)).take n := by
      rw [List.drop_eq_getElem_cons hi, List.take_succ_cons]
    have hwords : buffer ++ words ((parv.drop i).take (n + 1)) =
        buffer ++ (parv[i] ++ [' ']) ++ words ((parv.drop (i + 1)).take n) := by
      rw [hslice, words_cons, List.append_assoc, List.append_assoc, List.singleton_append]
    rw [encapCopy, arg_of_lt hi, hwords]
    have hlen : (buffer ++ (parv[i] ++ [' '])).length = buffer.length + (parv[i].length + 1) := by
      simp
    change (if IRCD_BUFSIZE ≤ buffer.length + (parv[i].length + 1) then
      (pure none : Except Nat (Option CStr)) else _) = _
    by_cases hfull : IRCD_BUFSIZE ≤ buffer.length + (parv[i].length + 1)
    · rw [if_pos hfull, if_neg]
      · rfl
      · rw [List.length_append, hlen]
        omega
    · rw [if_neg hfull]
      exact ih (by omega) (by omega)

/-- What comes in front of the last parameter of an ENCAP fits into the buffer. -/
def EncapFits (parv : List CStr) : Prop :=
  (words (parv.drop 1).dropLast).length < IRCD_BUFSIZE

instance (parv : List CStr) : Decidable (EncapFits parv) := inferInstanceAs (Decidable (_ < _))

theorem handle_msEncap {command : Command} {sender mask sub : CStr} {rest : List CStr} :
    net.handle source ⟨command, .msEncap, sender :: mask :: sub :: rest⟩ =
      .ok (if EncapFits (sender :: mask :: sub :: rest) then
        net.encapCall (sender :: mask :: sub :: rest) mask sub else none) := by
  have hslice : ((sender :: mask :: sub :: rest).drop 1).take
      ((sender :: mask :: sub :: rest).length - 2) =
        ((sender :: mask :: sub :: rest).drop 1).dropLast := by
    rw [List.dropLast_eq_take]
    rfl
  have hcopy := @encapCopy_eq (sender :: mask :: sub :: rest)
    ((sender :: mask :: sub :: rest).length - 2) 1 [] (by simp; omega) (by decide)
  rw [hslice, List.nil_append] at hcopy
  change (net.msEncap (sender :: mask :: sub :: rest)).map (fun result => result.bind Prod.snd) = _
  unfold msEncap
  by_cases hfits : EncapFits (sender :: mask :: sub :: rest)
  · have hlast : (sender :: mask :: sub :: rest).length - 1 <
        (sender :: mask :: sub :: rest).length := Nat.sub_lt (Nat.succ_pos _) Nat.one_pos
    have hroom : (words ((sender :: mask :: sub :: rest).drop 1).dropLast).length < IRCD_BUFSIZE :=
      hfits
    rw [hcopy, if_pos hroom, if_pos hfits, arg_of_lt hlast]
    rfl
  · have hroom : ¬(words ((sender :: mask :: sub :: rest).drop 1).dropLast).length <
        IRCD_BUFSIZE := hfits
    rw [hcopy, if_neg hroom, if_neg hfits]
    rfl

theorem encapCall_eq_some {mask sub : CStr} {call : Call} :
    net.encapCall parv mask sub = some call ↔
      matchMask mask (net.dir.clients net.me).name = true ∧ ∃ command handler,
        net.findCommand sub = some command ∧ command.encapHandler = some handler ∧
        call = ⟨command, handler, parv.take 1 ++ parv.drop 3⟩ := by
  unfold encapCall
  by_cases hmask : matchMask mask (net.dir.clients net.me).name = true
  · rw [if_pos hmask, and_iff_right hmask]
    cases net.findCommand sub with
    | none => exact iff_of_false (fun h => by cases h) fun ⟨_, _, h, _⟩ => by cases h
    | some command =>
      cases hhandler : command.encapHandler with
      | none =>
        refine iff_of_false (fun h => ?_) fun ⟨command', handler, h, hhandler', _⟩ => ?_
        · simp [hhandler] at h
        · cases h
          rw [hhandler] at hhandler'
          cases hhandler'
      | some handler =>
        simp only [Option.bind_eq_bind, Option.bind_some, hhandler]
        constructor
        · intro h
          cases h
          exact ⟨command, handler, rfl, hhandler, rfl⟩
        · rintro ⟨command', handler', h, hhandler', rfl⟩
          cases h
          rw [hhandler] at hhandler'
          cases hhandler'
          rfl
  · rw [if_neg hmask]
    exact iff_of_false (fun h => by cases h) fun h => hmask h.1

theorem missing_encapHandler {command : Command} {handler : Handler}
    (hhandler : command.encapHandler = some handler) (hlen : command.parameters ≤ parv.length) :
    missing (net.handle source ⟨command, handler, parv⟩) = none := by
  cases command with
  | tb | encap =>
    cases hhandler
    rfl
  | knock =>
    cases hhandler
    unfold handle
    dsimp only
    split
    · rw [missing_map]
      exact (missing_parseKnockRemote false).mpr hlen
    · rfl
  | other parameters byEncap =>
    cases byEncap with
    | false => cases hhandler
    | true =>
      cases hhandler
      rfl

/-- Every handler that is called has as many parameters as its message declares, and uses none
that was not sent. -/
def NoneMissing (served : List Served) : Prop :=
  ∀ s ∈ served, s.call.command.parameters ≤ s.call.parv.length ∧ s.missing = none

/-- What a command needs: the parameters that `ms_tb` uses, and for an ENCAP that comes to a
handler here, those that the message inside declares. -/
def Supplied (net : PeerNet) (parv : List CStr) : Command → Prop
  | .tb => net.TbSupplied parv
  | .encap => ∀ sender mask sub rest, parv = sender :: mask :: sub :: rest → EncapFits parv →
      matchMask mask (net.dir.clients net.me).name = true → ∀ inner,
        net.findCommand sub = some inner → inner.encapHandler.isSome = true →
          inner.parameters ≤ rest.length + 1
  | .knock | .other _ _ => True

theorem noneMissing_encap_iff (hlen : 3 ≤ parv.length) :
    NoneMissing (net.run source ⟨.encap, .msEncap, parv⟩) ↔ net.Supplied parv .encap := by
  obtain ⟨sender, mask, sub, rest, rfl⟩ : ∃ sender mask sub rest,
      parv = sender :: mask :: sub :: rest := by
    match parv, hlen with
    | sender :: mask :: sub :: rest, _ => exact ⟨sender, mask, sub, rest, rfl⟩
  have hhandle := @handle_msEncap net source .encap sender mask sub rest
  cases hinner : (if EncapFits (sender :: mask :: sub :: rest) then
      net.encapCall (sender :: mask :: sub :: rest) mask sub else none) with
  | none =>
    rw [hinner] at hhandle
    refine iff_of_true ?_ ?_
    · rw [run, hhandle]
      intro s hs
      obtain rfl := List.mem_singleton.mp hs
      exact ⟨hlen, rfl⟩
    · rintro _ _ _ _ ⟨rfl, rfl, rfl, rfl⟩ hfits hmask inner hfind hhandler
      obtain ⟨handler, hhandler⟩ := Option.isSome_iff_exists.mp hhandler
      rw [if_pos hfits, encapCall_eq_some.mpr ⟨hmask, inner, handler, hfind, hhandler, rfl⟩]
        at hinner
      cases hinner
  | some inner =>
    rw [hinner] at hhandle
    have hfits : EncapFits (sender :: mask :: sub :: rest) := by
      by_contra hfits
      rw [if_neg hfits] at hinner
      cases hinner
    rw [if_pos hfits] at hinner
    obtain ⟨hmask, command, handler, hfind, hhandler, rfl⟩ := encapCall_eq_some.mp hinner
    rw [run, hhandle]
    constructor
    · rintro h _ _ _ _ ⟨rfl, rfl, rfl, rfl⟩ _ _ inner hfind' _
      rw [hfind] at hfind'
      cases hfind'
      exact (h _ (List.mem_cons_of_mem _ (List.mem_singleton.mpr rfl))).1
    · intro h s hs
      have henough : command.parameters ≤ (sender :: rest).length :=
        h sender mask sub rest rfl hfits hmask command hfind (by rw [hhandler]; rfl)
      rcases List.mem_cons.mp hs with rfl | hs
      · exact ⟨hlen, rfl⟩
      · obtain rfl := List.mem_singleton.mp hs
        exact ⟨henough, missing_encapHandler hhandler henough⟩

theorem noneMissing_run_of_plain {call : Call} (hlen : call.command.parameters ≤ call.parv.length)
    (hplain : ∀ inner, net.handle source call ≠ .ok (some inner)) :
    NoneMissing (net.run source call) ↔ missing (net.handle source call) = none := by
  unfold run
  cases hhandle : net.handle source call with
  | error k =>
    refine iff_of_false (fun h => ?_) fun h => by cases h
    have hnone := (h _ (List.mem_singleton.mpr rfl)).2
    cases hnone
  | ok result =>
    cases result with
    | none =>
      refine iff_of_true (fun s hs => ?_) rfl
      obtain rfl := List.mem_singleton.mp hs
      exact ⟨hlen, rfl⟩
    | some inner => exact absurd hhandle (hplain inner)

theorem map_none_ne {α : Type} (x : Except Nat α) (call : Call) :
    x.map (fun _ => (none : Option Call)) ≠ .ok (some call) := by
  cases x <;> exact fun h => by cases h

theorem noneMissing_run_iff {command : Command} (hlen : command.parameters ≤ parv.length) :
    NoneMissing (net.run source ⟨command, command.serverHandler, parv⟩) ↔
      net.Supplied parv command := by
  cases command with
  | encap => exact noneMissing_encap_iff hlen
  | tb =>
    have hhandle : net.handle source ⟨.tb, .msTb, parv⟩ =
        (net.msTb source parv).map fun _ => none := rfl
    have hmissing : missing (net.handle source ⟨.tb, .msTb, parv⟩) =
        missing (net.msTb source parv) := by rw [hhandle, missing_map]
    refine (noneMissing_run_of_plain hlen fun inner => ?_).trans ?_
    · exact hhandle ▸ map_none_ne _ inner
    · exact hmissing ▸ missing_msTb_iff
  | knock =>
    refine iff_of_true ?_ trivial
    rw [noneMissing_run_of_plain hlen]
    · unfold handle
      dsimp only [Command.serverHandler]
      split
      · rw [missing_map]
        exact (missing_parseKnockRemote true).mpr hlen
      · rfl
    · intro inner
      unfold handle
      dsimp only [Command.serverHandler]
      split
      · exact map_none_ne _ inner
      · exact fun h => by cases h
  | other parameters byEncap =>
    refine iff_of_true ?_ trivial
    rw [noneMissing_run_of_plain hlen fun inner h => by cases h]
    rfl

end PeerNet

/-- No handler misses a parameter of a line just when a TB brings what `ms_tb` uses, and the
message inside an ENCAP what it declares. -/
theorem params_supplied_iff (net : PeerNet) (link : Cid) (pbuffer : CStr) :
    PeerNet.NoneMissing (net.receive link pbuffer) ↔ ∀ source command parv,
      net.parse link pbuffer = some (source, command, parv) →
      command.parameters ≤ parv.length → net.Supplied parv command := by
  unfold PeerNet.receive
  cases hparse : net.parse link pbuffer with
  | none => exact iff_of_true (fun s h => by cases h) fun source command parv h => by cases h
  | some parsed =>
    obtain ⟨source, command, parv⟩ := parsed
    dsimp only
    unfold PeerNet.handleCommand
    by_cases hlen : parv.length < command.parameters
    · rw [if_pos hlen]
      refine iff_of_true (fun s h => by cases h) fun source' command' parv' h hlen' => ?_
      cases h
      exact absurd hlen' (not_le.mpr hlen)
    · rw [if_neg hlen, PeerNet.noneMissing_run_iff (not_lt.mp hlen)]
      constructor
      · intro h source' command' parv' heq _
        cases heq
        exact h
      · exact fun h => h source command parv rfl (not_lt.mp hlen)

/-- A server with two peers and a user behind one of them, and the commands TB, KNOCK and
ENCAP. -/
def peerHub : PeerNet where
  me := 0
  dir :=
    { clients := fun x =>
        { (default : Client) with
          status := if x = 0 then .me else if x = 2 then .client else .server
          name := if x = 0 then "hub.example".toList else if x = 2 then "nick".toList
            else "leaf.example".toList
          «from» := 1 }
      hashFindId := fun _ => none
      findClient := fun name => if name = "nick".toList then some 2 else none
      findServer := fun _ => none
      getHistory := fun _ => none }
  caps := fun _ => 0
  findCommand := fun name =>
    if name = "TB".toList then some .tb else if name = "KNOCK".toList then some .knock
    else if name = "ENCAP".toList then some .encap else none
  hashFindChannel := fun _ => none

/-- `:nick ENCAP * KNOCK` has `me_knock` use a name that was not sent, and `TB #channel` has
`ms_tb` use the time. -/
theorem short_lines_miss :
    peerHub.receive 1 ":nick ENCAP * KNOCK".toList =
        [⟨⟨.encap, .msEncap, ["nick".toList, "*".toList, "KNOCK".toList]⟩, none⟩,
          ⟨⟨.knock, .meKnock, ["nick".toList]⟩, some 1⟩] ∧
      peerHub.receive 1 "TB #channel".toList =
        [⟨⟨.tb, .msTb, ["leaf.example".toList, "#channel".toList]⟩, some 2⟩] ∧
      ¬PeerNet.NoneMissing (peerHub.receive 1 ":nick ENCAP * KNOCK".toList) ∧
      ¬PeerNet.NoneMissing (peerHub.receive 1 "TB #channel".toList) := by
  obtain ⟨hknock, htb⟩ : peerHub.receive 1 ":nick ENCAP * KNOCK".toList =
        [⟨⟨.encap, .msEncap, ["nick".toList, "*".toList, "KNOCK".toList]⟩, none⟩,
          ⟨⟨.knock, .meKnock, ["nick".toList]⟩, some 1⟩] ∧
      peerHub.receive 1 "TB #channel".toList =
        [⟨⟨.tb, .msTb, ["leaf.example".toList, "#channel".toList]⟩, some 2⟩] := by
    decide +kernel
  refine ⟨hknock, htb, fun h => ?_, fun h => ?_⟩
  · have hnone := (h _ (hknock ▸ List.mem_cons_of_mem _ (List.mem_singleton.mpr rfl))).2
    cases hnone
  · have hnone := (h _ (htb ▸ List.mem_singleton.mpr rfl)).2
    cases hnone

end Ircd
