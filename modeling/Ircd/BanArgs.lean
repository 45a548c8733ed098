import Ircd.Gline
import Ircd.Line

/-!
The arguments of the ban commands: `valid_tkline`, `find_user_host` and `parse_aline`.

`Aline` is the grammar `[time] mask [ON server] [reason]`, by what it writes. `parse_aline`
reads it, but for a first parameter that is empty, which `valid_tkline` takes for a time, and
for parameters behind the reason, which it does not look at. `valid_tkline` itself counts in a
`time_t` without a bound, and makes nothing of less than a minute (`ban_args_iff`).
-/

namespace Ircd

namespace BanArgs

/-! ### Times -/

/-- `TK_SECONDS` and `TK_MINUTES`. -/
inductive TkUnit where
  | seconds
  | minutes
  deriving DecidableEq, Repr

/-- What C does not define: a `time_t` that overflows, and a read at or behind `parv[parc]`. -/
inductive Fault where
  | overflow
  | pastEnd
  deriving DecidableEq, Repr

/-- The loop of `valid_tkline`; `none` for a character that is no digit. -/
def tklineDigits : CStr → Nat → Except Fault (Option Nat)
  | [], result => .ok (some result)
  | c :: p, result =>
    if isDigit c then
      if LONG_MAX < result * 10 + digitVal c then .error .overflow
      else tklineDigits p (result * 10 + digitVal c)
    else .ok none

/-- `valid_tkline` behind the loop. -/
def tklineTime (unit : TkUnit) (result : Nat) : Nat :=
  let result := if result = 0 then 1 else result
  let result := if unit = .seconds then result / 60 else result
  (if MAX_TDKLINE_TIME.toNat < result then MAX_TDKLINE_TIME.toNat else result) * 60

/-- `valid_tkline`. -/
def validTkline (p : CStr) (unit : TkUnit) : Except Fault Nat :=
  (tklineDigits p 0).map fun result => result.elim 0 (tklineTime unit)

/-- A text of digits, which is a time. -/
def isTime (p : CStr) : Bool := !p.isEmpty && p.all isDigit

/-- The time that a text denotes, in seconds: whole minutes, at least one and at most
`MAX_TDKLINE_TIME`; 0 for a text that is none. -/
def denoted (p : CStr) (unit : TkUnit) : Nat :=
  if isTime p then
    max 1 (min MAX_TDKLINE_TIME.toNat
      (if unit = .seconds then readDigits 0 p / 60 else readDigits 0 p)) * 60
  else 0

/-- `valid_tkline` is right about a text. -/
def TklineRight (p : CStr) (unit : TkUnit) : Prop := validTkline p unit = .ok (denoted p unit)

theorem le_readDigits (p : CStr) (acc : Nat) : acc ≤ readDigits acc p := by
  induction p generalizing acc with
  | nil => exact le_refl acc
  | cons c p ih =>
    rw [readDigits]
    split
    · exact le_trans (by omega) (ih _)
    · exact le_refl acc

theorem tklineDigits_eq (p : CStr) {acc : Nat} (hacc : acc ≤ LONG_MAX) : tklineDigits p acc =
    if readDigits acc p ≤ LONG_MAX then
      .ok (if p.all isDigit then some (readDigits acc p) else none)
    else .error .overflow := by
  induction p generalizing acc with
  | nil => rw [readDigits, if_pos hacc]; rfl
  | cons c p ih =>
    rw [tklineDigits, readDigits, List.all_cons]
    by_cases hc : isDigit c = true
    · rw [if_pos hc, if_pos hc, hc, Bool.true_and]
      by_cases hover : LONG_MAX < acc * 10 + digitVal c
      · rw [if_pos hover, if_neg (not_le.mpr (hover.trans_le (le_readDigits p _)))]
      · rw [if_neg hover]
        exact ih (not_lt.mp hover)
    · have hfalse : isDigit c = false := by simpa using hc
      rw [if_neg hc, if_neg hc, if_pos hacc, hfalse, Bool.false_and]
      rfl

theorem validTkline_eq (p : CStr) (unit : TkUnit) : validTkline p unit =
    if readDigits 0 p ≤ LONG_MAX then
      .ok (if p.all isDigit then tklineTime unit (readDigits 0 p) else 0)
    else .error .overflow := by
  rw [validTkline, tklineDigits_eq p (Nat.zero_le _)]
  split
  · split <;> rfl
  · rfl

theorem tklineTime_eq_iff (unit : TkUnit) (v : Nat) : tklineTime unit v =
      max 1 (min MAX_TDKLINE_TIME.toNat (if unit = .seconds then v / 60 else v)) * 60 ↔
    (unit = .seconds → 60 ≤ v) := by
  have hmax : MAX_TDKLINE_TIME.toNat = 14400 := rfl
  unfold tklineTime
  rw [hmax]
  cases unit with
  | minutes =>
    simp only [reduceCtorEq, if_false, false_implies, iff_true]
    split_ifs <;> omega
  | seconds =>
    simp only [if_true, true_implies]
    split_ifs <;> omega

theorem tklineRight_iff (p : CStr) (unit : TkUnit) : TklineRight p unit ↔
    readDigits 0 p ≤ LONG_MAX ∧ (p = [] → unit = .seconds) ∧
      (unit = .seconds → isTime p = true → 60 ≤ readDigits 0 p) := by
  unfold TklineRight
  rw [validTkline_eq]
  by_cases hroom : readDigits 0 p ≤ LONG_MAX
  swap
  · rw [if_neg hroom]
    exact iff_of_false (fun h => by cases h) fun h => hroom h.1
  rw [if_pos hroom, and_iff_right hroom, Except.ok.injEq, denoted]
  rcases eq_or_ne p [] with rfl | hne
  · cases unit with
    | minutes => exact iff_of_false (by decide) fun h => by cases h.1 rfl
    | seconds => exact iff_of_true (by decide) ⟨fun _ => rfl, fun _ h => by cases h⟩
  have htime : isTime p = p.all isDigit := by
    rw [isTime, List.isEmpty_eq_false_iff.mpr hne, Bool.not_false, Bool.true_and]
  rw [htime]
  by_cases hdigits : p.all isDigit = true
  · rw [if_pos hdigits, if_pos hdigits, tklineTime_eq_iff]
    exact ⟨fun h => ⟨fun heq => absurd heq hne, fun hunit _ => h hunit⟩,
      fun h hunit => h.2 hunit hdigits⟩
  · rw [if_neg hdigits, if_neg hdigits]
    exact iff_of_true rfl ⟨fun heq => absurd heq hne, fun _ h => absurd h hdigits⟩

theorem validTkline_forwarded {p text : CStr} {time : Nat}
    (htime : validTkline p .minutes = .ok time) (hne : time ≠ 0)
    (htext : text.all isDigit = true) (hread : readDigits 0 text = time) :
    validTkline text .seconds = .ok time := by
  have hmax : MAX_TDKLINE_TIME.toNat = 14400 := rfl
  rw [validTkline_eq] at htime
  split at htime
  swap
  · cases htime
  rw [Except.ok.injEq] at htime
  split at htime
  swap
  · exact absurd htime.symm hne
  obtain ⟨minutes, hlow, hhigh, hminutes⟩ : ∃ minutes, 1 ≤ minutes ∧ minutes ≤ 14400 ∧
      time = minutes * 60 := by
    unfold tklineTime at htime
    simp only [reduceCtorEq, if_false, hmax] at htime
    refine ⟨_, ?_, ?_, htime.symm⟩
    · split_ifs <;> omega
    · split_ifs <;> omega
  have hroom : time ≤ LONG_MAX := by
    unfold LONG_MAX
    omega
  rw [validTkline_eq, hread, if_pos hroom, if_pos htext, tklineTime, hmax]
  simp only [if_true]
  rw [if_neg hne, if_neg (by omega), hminutes, Nat.mul_div_cancel _ (by decide)]

theorem validTkline_le {p : CStr} {unit : TkUnit} {time : Nat}
    (h : validTkline p unit = .ok time) : time ≤ 864000 := by
  have hmax : MAX_TDKLINE_TIME.toNat = 14400 := rfl
  rw [validTkline_eq] at h
  split at h
  · rw [Except.ok.injEq] at h
    rw [← h]
    split
    · unfold tklineTime
      rw [hmax]
      dsimp only
      split_ifs <;> omega
    · exact Nat.zero_le _
  · cases h

theorem validTkline_sent {p : CStr} {time : Nat} (htime : validTkline p .minutes = .ok time)
    (hne : time ≠ 0) : validTkline (luText time) .seconds = .ok time ∧
      validTkline (dText time) .seconds = .ok time := by
  have hle := validTkline_le htime
  constructor
  · have htext : luText time = padDigits 9 time := by
      rw [luText, if_neg hne, if_neg (by omega)]
    refine validTkline_forwarded htime hne ?_ ?_
    · rw [htext]
      exact List.all_eq_true.mpr fun c => isDigit_padDigits
    · rw [htext, readDigits_padDigits]
      omega
  · have htext : dText time = (padDigits 12 time).dropWhile (· == '0') := by
      rw [dText, if_neg (by omega), if_neg (by omega), Int.natAbs_natCast]
    refine validTkline_forwarded htime hne ?_ ?_
    · rw [htext]
      exact List.all_eq_true.mpr fun c hc =>
        isDigit_padDigits ((List.dropWhile_sublist _).subset hc)
    · rw [htext, readDigits_dropWhile_zero, readDigits_padDigits]
      omega

/-! ### The parser -/

/-- What a command gives to `parse_aline`: its name, which of the pointers are not NULL, and the
flags. -/
structure AlineCall where
  cmd : CStr
  host : Bool
  time : Bool
  server : Bool
  reason : Bool
  awild : Bool
  noUserLookup : Bool

/-- What it reads besides: the settings, `find_chasing`, and the rights of the operator. -/
structure AlineEnv where
  minNonwildcard : Int
  chase : CStr → Option GlineTarget
  operRemoteBan : Bool

/-- What is put behind the pointers, which are 0 and NULL before: the time, `up_p`, `h_p`, the
server and the reason. -/
structure AlineResult where
  time : Nat
  user : CStr
  host : Option CStr
  server : Option CStr
  reason : Option CStr
  deriving DecidableEq, Repr

/-- Why a line is not valid. -/
inductive AlineReply where
  | tempLine (cmd : CStr)
  | needMoreParams (cmd : CStr)
  | userHost
  | onServer (cmd : CStr)
  | noPrivs
  | invalidCharacter
  | wildCards (minNonwildcard : Int)
  | comment
  deriving DecidableEq, Repr

/-- 1 or -1. -/
inductive AlineOutcome where
  | valid (r : AlineResult)
  | invalid (reply : AlineReply)
  deriving DecidableEq, Repr

variable (call : AlineCall) (env : AlineEnv)

/-- `*parv`. -/
def star : List CStr → Except Fault CStr
  | [] => .error .pastEnd
  | p :: _ => .ok p

/-- `find_user_host`; without a lookup a text must look like a mask. -/
def findUserHost (text : CStr) : Option (CStr × CStr) :=
  if call.noUserLookup && !(decide ('@' ∈ text) || text.head? == some '*') then none
  else Ircd.findUserHost env.chase text

/-- The mask, as it is put behind `up_p` and `h_p`. -/
def maskOf (text : CStr) : Option (CStr × Option CStr) :=
  if call.host then (findUserHost call env text).map fun found => (found.1, some found.2)
  else some (text, none)

/-- `def_reason`. -/
def defReason : CStr := "No Reason".toList

/-- The end of `parse_aline`: the checks of the mask, and the reason. -/
def alineReason (time : Nat) (user : CStr) (host server : Option CStr) (parv : List CStr) :
    Except Fault AlineOutcome :=
  if host.isSome && decide ('!' ∈ user) then .ok (.invalid .invalidCharacter)
  else if call.awild && !validWildCard env.minNonwildcard (user :: host.toList) then
    .ok (.invalid (.wildCards env.minNonwildcard))
  else if call.reason then
    if parv ≠ [] then do
      match validComment (← star parv) with
      | none => return .invalid .comment
      | some reason => return .valid ⟨time, user, host, server, some reason⟩
    else .ok (.valid ⟨time, user, host, server, some defReason⟩)
  else .ok (.valid ⟨time, user, host, server, none⟩)

/-- The part about `ON`. -/
def alineServer (time : Nat) (user : CStr) (host : Option CStr) (parv : List CStr) :
    Except Fault AlineOutcome :=
  if parv ≠ [] then do
    let on ← star parv
    if ircEq on "ON".toList then
      if !call.server then return .invalid (.onServer call.cmd)
      else if !env.operRemoteBan then return .invalid .noPrivs
      else if parv.drop 1 = [] then return .invalid (.needMoreParams call.cmd)
      else
        let server ← star (parv.drop 1)
        if server = [] then return .invalid (.needMoreParams call.cmd)
        else alineReason call env time user host (some server) (parv.drop 2)
    else alineReason call env time user host none parv
  else alineReason call env time user host none parv

def alineMask (time : Nat) (parv : List CStr) : Except Fault AlineOutcome :=
  if parv = [] then .ok (.invalid (.needMoreParams call.cmd))
  else do
    match maskOf call env (← star parv) with
    | none => return .invalid .userHost
    | some (user, host) => alineServer call env time user host (parv.drop 1)

/-- `parse_aline`; `parv` is `parv + 1`. An `int` holds every time that is found. -/
def parseAline (parv : List CStr) : Except Fault AlineOutcome := do
  let found ← validTkline (← star parv) .minutes
  if found ≠ 0 then
    if !call.time then return .invalid (.tempLine call.cmd)
    else alineMask call env found (parv.drop 1)
  else alineMask call env 0 parv

/-! ### The grammar -/

/-- `[time] mask [ON server] [reason]`; `server` has the `ON` as it was written. -/
structure Aline where
  time : Option CStr
  mask : CStr
  server : Option (CStr × CStr)
  reason : Option CStr
  deriving DecidableEq, Repr

def Aline.params (x : Aline) : List CStr :=
  x.time.toList ++ x.mask :: ((x.server.elim [] fun s => [s.1, s.2]) ++ x.reason.toList)

/-- The optional parts are where they look like it: a first parameter of digits is the time,
and an `ON` behind the mask comes with a server. -/
structure Aline.Wf (x : Aline) : Prop where
  time : ∀ p, x.time = some p → isTime p = true
  mask : x.time = none → isTime x.mask = false
  server : ∀ s, x.server = some s → ircEq s.1 "ON".toList = true ∧ s.2 ≠ []
  reason : x.server = none → ∀ r, x.reason = some r → ircEq r "ON".toList = false

/-- What a command gets if the time and the server are allowed: nothing, if the mask or the
reason will not do. -/
def lineResult (time : Nat) (user : CStr) (host server reason : Option CStr) :
    Option AlineResult :=
  if host.isSome && decide ('!' ∈ user) then none
  else if call.awild && !validWildCard env.minNonwildcard (user :: host.toList) then none
  else
    (if call.reason then (reason.elim (some defReason) validComment).map some else some none).map
      fun reason => ⟨time, user, host, server, reason⟩

/-- What a command gets from a line: nothing, if it takes no time or no server, or the operator
may not name one. -/
def Aline.result (x : Aline) : Option AlineResult :=
  if (x.time.isSome && !call.time) || (x.server.isSome && !(call.server && env.operRemoteBan)) then
    none
  else
    (maskOf call env x.mask).bind fun found =>
      lineResult call env (x.time.elim 0 fun p => denoted p .minutes) found.1 found.2
        (x.server.map Prod.snd) x.reason

/-- The parameters of a command, as `string_to_array` makes them: all but the last are words. -/
structure BanParams where
  first : CStr
  more : List CStr
  words : ∀ w ∈ (first :: more).dropLast, IsWord w

/-- From `parv[1]` on. -/
def BanParams.list (ps : BanParams) : List CStr := ps.first :: ps.more

/-- `parse_aline` is right about parameters: it overflows nothing and reads nothing behind them,
and it gets what the grammar says, and that alone. -/
def AlineRight (parv : List CStr) : Prop :=
  ∃ outcome, parseAline call env parv = .ok outcome ∧ ∀ r, outcome = .valid r ↔
    ∃ x : Aline, x.Wf ∧ x.params = parv ∧ x.result call env = some r

/-! ### Reading -/

/-- The server behind an `ON`, and the reason. -/
def readServer (time : Option CStr) (mask on : CStr) : List CStr → Option (Aline × List CStr)
  | [] => none
  | server :: rest =>
    if server = [] then none
    else some (⟨time, mask, some (on, server), rest.head?⟩, rest.drop 1)

/-- What follows the mask, and what is left. -/
def readTail (time : Option CStr) (mask : CStr) : List CStr → Option (Aline × List CStr)
  | [] => some (⟨time, mask, none, none⟩, [])
  | p :: rest =>
    if ircEq p "ON".toList then readServer time mask p rest
    else some (⟨time, mask, none, some p⟩, rest)

def readMask (time : Option CStr) : List CStr → Option (Aline × List CStr)
  | [] => none
  | mask :: rest => readTail time mask rest

/-- Parameters read from the left, and what is left of them. -/
def readAline : List CStr → Option (Aline × List CStr)
  | [] => none
  | p :: rest => if isTime p then readMask (some p) rest else readMask none (p :: rest)

theorem readTail_iff {time : Option CStr} {mask : CStr} {parv extra : List CStr} {x : Aline} :
    readTail time mask parv = some (x, extra) ↔ x.time = time ∧ x.mask = mask ∧
      (∀ s, x.server = some s → ircEq s.1 "ON".toList = true ∧ s.2 ≠ []) ∧
      (x.server = none → ∀ r, x.reason = some r → ircEq r "ON".toList = false) ∧
      parv = ((x.server.elim [] fun s => [s.1, s.2]) ++ x.reason.toList) ++ extra ∧
      (x.reason = none → extra = []) := by
  constructor
  · intro h
    cases parv with
    | nil =>
      cases h
      refine ⟨rfl, rfl, fun s hs => ?_, fun _ r hr => ?_, rfl, fun _ => rfl⟩
      · cases hs
      · cases hr
    | cons p rest =>
      rw [readTail] at h
      by_cases hon : ircEq p "ON".toList = true
      · rw [if_pos hon] at h
        cases rest with
        | nil => cases h
        | cons server rest =>
          rw [readServer] at h
          by_cases hserver : server = []
          · rw [if_pos hserver] at h
            cases h
          · rw [if_neg hserver] at h
            cases h
            refine ⟨rfl, rfl, fun s hs => ?_, fun hs => ?_, ?_, ?_⟩
            · cases hs
              exact ⟨hon, hserver⟩
            · cases hs
            · cases rest <;> rfl
            · cases rest with
              | nil => exact fun _ => rfl
              | cons r rest => exact fun hr => by cases hr
      · rw [if_neg hon] at h
        cases h
        refine ⟨rfl, rfl, fun s hs => ?_, fun _ r hr => ?_, rfl, fun hr => ?_⟩
        · cases hs
        · cases hr
          simpa using hon
        · cases hr
  · obtain ⟨xtime, xmask, server, reason⟩ := x
    rintro ⟨rfl, rfl, hserver, hreason, rfl, hextra⟩
    cases server with
    | none =>
      cases reason with
      | none =>
        obtain rfl := hextra rfl
        rfl
      | some r =>
        have hon := hreason rfl r rfl
        change readTail xtime xmask (r :: extra) = _
        rw [readTail, if_neg (by rw [hon]; exact Bool.false_ne_true)]
    | some s =>
      obtain ⟨hon, hne⟩ := hserver s rfl
      change readTail xtime xmask (s.1 :: s.2 :: (reason.toList ++ extra)) = _
      rw [readTail, if_pos hon, readServer, if_neg hne]
      cases reason with
      | none =>
        obtain rfl := hextra rfl
        rfl
      | some r => rfl

theorem readAline_iff {parv extra : List CStr} {x : Aline} :
    readAline parv = some (x, extra) ↔
      x.Wf ∧ parv = x.params ++ extra ∧ (x.reason = none → extra = []) := by
  constructor
  · intro h
    cases parv with
    | nil => cases h
    | cons p rest =>
      rw [readAline] at h
      by_cases htime : isTime p = true
      · rw [if_pos htime] at h
        cases rest with
        | nil => cases h
        | cons mask rest =>
          obtain ⟨hxtime, hxmask, hserver, hreason, rfl, hextra⟩ := readTail_iff.mp h
          refine ⟨⟨fun q hq => ?_, fun hq => ?_, hserver, hreason⟩, ?_, hextra⟩
          · rw [hxtime] at hq
            cases hq
            exact htime
          · rw [hxtime] at hq
            cases hq
          · simp [Aline.params, hxtime, hxmask]
      · rw [if_neg htime] at h
        obtain ⟨hxtime, hxmask, hserver, hreason, rfl, hextra⟩ := readTail_iff.mp h
        refine ⟨⟨fun q hq => ?_, fun _ => ?_, hserver, hreason⟩, ?_, hextra⟩
        · rw [hxtime] at hq
          cases hq
        · rw [hxmask]
          simpa using htime
        · simp [Aline.params, hxtime, hxmask]
  · rintro ⟨hwf, rfl, hextra⟩
    have htail : readTail x.time x.mask (((x.server.elim [] fun s => [s.1, s.2]) ++
        x.reason.toList) ++ extra) = some (x, extra) :=
      readTail_iff.mpr ⟨rfl, rfl, hwf.server, hwf.reason, rfl, hextra⟩
    rw [Aline.params]
    cases htime : x.time with
    | none =>
      rw [htime] at htail
      change readAline (x.mask :: _) = _
      rw [readAline, if_neg (by rw [hwf.mask htime]; exact Bool.false_ne_true)]
      exact htail
    | some p =>
      rw [htime] at htail
      change readAline (p :: x.mask :: _) = _
      rw [readAline, if_pos (hwf.time p htime)]
      exact htail

variable {call env}

/-- A function of `parse_aline` gets this, or nothing. -/
def Gets (found : Except Fault AlineOutcome) (want : Option AlineResult) : Prop :=
  ∃ outcome, found = .ok outcome ∧ ∀ r, outcome = .valid r ↔ want = some r

theorem gets_invalid (reply : AlineReply) : Gets (.ok (.invalid reply)) none :=
  ⟨_, rfl, fun r => iff_of_false (fun h => by cases h) fun h => by cases h⟩

theorem gets_valid (r : AlineResult) : Gets (.ok (.valid r)) (some r) :=
  ⟨_, rfl, fun r' => by rw [AlineOutcome.valid.injEq, Option.some.injEq]⟩

theorem alineReason_gets (time : Nat) (user : CStr) (host server : Option CStr)
    (parv : List CStr) : Gets (alineReason call env time user host server parv)
      (lineResult call env time user host server parv.head?) := by
  unfold alineReason lineResult
  split
  · exact gets_invalid _
  · split
    · exact gets_invalid _
    · split
      · cases parv with
        | nil => exact gets_valid _
        | cons p rest =>
          rw [if_pos (List.cons_ne_nil _ _)]
          change Gets (match validComment p with
            | none => (pure (.invalid .comment) : Except Fault AlineOutcome)
            | some reason => pure (.valid ⟨time, user, host, server, some reason⟩)) _
          dsimp only [List.head?_cons, Option.elim_some]
          cases validComment p with
          | none => exact gets_invalid _
          | some reason => exact gets_valid _
      · exact gets_valid _

theorem result_eq {x : Aline} {user : CStr} {host : Option CStr}
    (htime : x.time.isSome = true → call.time = true)
    (hserver : x.server.isSome = true → call.server = true ∧ env.operRemoteBan = true)
    (hmask : maskOf call env x.mask = some (user, host)) : x.result call env =
      lineResult call env (x.time.elim 0 fun p => denoted p .minutes) user host
        (x.server.map Prod.snd) x.reason := by
  rw [Aline.result, if_neg, hmask, Option.bind_some]
  simp only [Bool.or_eq_true, Bool.and_eq_true, Bool.not_eq_true', Bool.and_eq_false_iff]
  rintro (⟨hsome, hnot⟩ | ⟨hsome, hnot⟩)
  · rw [htime hsome] at hnot
    cases hnot
  · obtain ⟨hcall, hoper⟩ := hserver hsome
    rcases hnot with hnot | hnot
    · rw [hcall] at hnot
      cases hnot
    · rw [hoper] at hnot
      cases hnot

theorem alineServer_gets {time : Option CStr} {mask user : CStr} {host : Option CStr}
    (htime : time.isSome = true → call.time = true)
    (hmask : maskOf call env mask = some (user, host)) (parv : List CStr) :
    Gets (alineServer call env (time.elim 0 fun p => denoted p .minutes) user host parv)
      ((readTail time mask parv).bind fun found => found.1.result call env) := by
  have hplain : ∀ reason, (⟨time, mask, none, reason⟩ : Aline).result call env =
      lineResult call env (time.elim 0 fun p => denoted p .minutes) user host none reason :=
    fun reason => result_eq htime (fun h => by cases h) hmask
  cases parv with
  | nil =>
    rw [readTail, Option.bind_some, hplain]
    exact alineReason_gets _ user host none []
  | cons p rest =>
    rw [alineServer, if_pos (List.cons_ne_nil _ _), readTail]
    by_cases hon : ircEq p "ON".toList = true
    swap
    · rw [if_neg hon, Option.bind_some, hplain]
      change Gets (if ircEq p "ON".toList then _ else _) _
      rw [if_neg hon]
      exact alineReason_gets _ user host none (p :: rest)
    rw [if_pos hon]
    change Gets (if ircEq p "ON".toList then _ else _) _
    rw [if_pos hon]
    by_cases hright : call.server = true ∧ env.operRemoteBan = true
    · rw [if_neg (by simpa using hright.1), if_neg (by simpa using hright.2)]
      cases rest with
      | nil => exact gets_invalid _
      | cons server rest =>
        change Gets (if server = [] then _ else _) _
        rw [readServer]
        by_cases hserver : server = []
        · rw [if_pos hserver, if_pos hserver]
          exact gets_invalid _
        · rw [if_neg hserver, if_neg hserver, Option.bind_some,
            result_eq htime (fun _ => hright) hmask]
          exact alineReason_gets _ user host (some server) rest
    · -- nothing comes of a server that may not be named
      have hnone : ∀ server reason, (⟨time, mask, some server, reason⟩ : Aline).result call env =
          none := by
        intro server reason
        refine if_pos ?_
        simp only [Option.isSome_some, Bool.true_and, Bool.or_eq_true, Bool.not_eq_true',
          Bool.and_eq_false_iff]
        by_cases hcall : call.server = true
        · exact .inr (.inr (by simpa using fun h => hright ⟨hcall, h⟩))
        · exact .inr (.inl (by simpa using hcall))
      have hwant : ((readServer time mask p rest).bind fun found => found.1.result call env) =
          none := by
        cases rest with
        | nil => rfl
        | cons server rest =>
          rw [readServer]
          split
          · rfl
          · exact hnone _ _
      rw [hwant]
      by_cases hcall : call.server = true
      · rw [if_neg (by simpa using hcall), if_pos (by simpa using fun h => hright ⟨hcall, h⟩)]
        exact gets_invalid _
      · rw [if_pos (by simpa using hcall)]
        exact gets_invalid _

theorem alineMask_gets {time : Option CStr} (htime : time.isSome = true → call.time = true)
    (parv : List CStr) :
    Gets (alineMask call env (time.elim 0 fun p => denoted p .minutes) parv)
      ((readMask time parv).bind fun found => found.1.result call env) := by
  cases parv with
  | nil => exact gets_invalid _
  | cons mask rest =>
    rw [alineMask, if_neg (List.cons_ne_nil _ _), readMask]
    change Gets (match maskOf call env mask with
      | none => (pure (.invalid .userHost) : Except Fault AlineOutcome)
      | some (user, host) =>
        alineServer call env (time.elim 0 fun p => denoted p .minutes) user host rest) _
    cases hmask : maskOf call env mask with
    | some found => exact alineServer_gets htime hmask rest
    | none =>
      have hwant : ((readTail time mask rest).bind fun found => found.1.result call env) =
          none := by
        rw [Option.bind_eq_none_iff]
        rintro ⟨x, extra⟩ hread
        obtain ⟨-, hxmask, -⟩ := readTail_iff.mp hread
        dsimp only
        unfold Aline.result
        split
        · rfl
        · rw [hxmask, hmask]
          rfl
      rw [hwant]
      exact gets_invalid _

theorem readMask_none {p : CStr} (hcall : ¬call.time = true) (parv : List CStr) :
    ((readMask (some p) parv).bind fun found => found.1.result call env) = none := by
  rw [Option.bind_eq_none_iff]
  rintro ⟨x, extra⟩ hread
  have htime : x.time = some p := by
    cases parv with
    | nil => cases hread
    | cons mask rest => exact (readTail_iff.mp hread).1
  refine if_pos ?_
  rw [htime, Bool.or_eq_true]
  exact .inl (by simpa using hcall)

theorem parseAline_gets {p : CStr} (hne : p ≠ []) (hroom : readDigits 0 p ≤ LONG_MAX)
    (rest : List CStr) : Gets (parseAline call env (p :: rest))
      ((readAline (p :: rest)).bind fun found => found.1.result call env) := by
  have hright : validTkline p .minutes = .ok (denoted p .minutes) :=
    (tklineRight_iff p .minutes).mpr ⟨hroom, fun h => absurd h hne, fun h => by cases h⟩
  have hparse : parseAline call env (p :: rest) =
      if denoted p .minutes ≠ 0 then
        if !call.time then .ok (.invalid (.tempLine call.cmd))
        else alineMask call env (denoted p .minutes) rest
      else alineMask call env 0 (p :: rest) := by
    change (validTkline p .minutes >>= _) = _
    rw [hright]
    rfl
  rw [hparse, readAline]
  by_cases htime : isTime p = true
  · have hpos : denoted p .minutes ≠ 0 := by
      rw [denoted, if_pos htime]
      omega
    rw [if_pos hpos, if_pos htime]
    by_cases hcall : call.time = true
    · rw [if_neg (by simpa using hcall)]
      exact @alineMask_gets call env (some p) (fun _ => hcall) rest
    · rw [if_pos (by simpa using hcall), readMask_none hcall rest]
      exact gets_invalid _
  · have hzero : denoted p .minutes = 0 := by rw [denoted, if_neg htime]
    rw [if_neg (not_not.mpr hzero), if_neg htime]
    have hnone : (none : Option CStr).isSome = true → call.time = true := fun h => by cases h
    exact alineMask_gets hnone (p :: rest)

theorem alineRight_iff {p : CStr} (hne : p ≠ []) (hroom : readDigits 0 p ≤ LONG_MAX)
    (rest : List CStr) : AlineRight call env (p :: rest) ↔
      ∀ (x : Aline) e extra, x.Wf → x.reason ≠ none → p :: rest = x.params ++ e :: extra →
        x.result call env = none := by
  obtain ⟨outcome, hparse, hgets⟩ := @parseAline_gets call env p hne hroom rest
  constructor
  · rintro ⟨outcome', hparse', hright⟩ x e extra hwf hreason hparams
    rw [hparse, Except.ok.injEq] at hparse'
    subst hparse'
    have hread : readAline (p :: rest) = some (x, e :: extra) :=
      readAline_iff.mpr ⟨hwf, hparams, fun h => absurd h hreason⟩
    refine Option.eq_none_iff_forall_ne_some.mpr fun r hr => ?_
    have hvalid : outcome = .valid r := by
      rw [hgets, hread, Option.bind_some]
      exact hr
    obtain ⟨x', hwf', hparams', -⟩ := (hright r).mp hvalid
    have hread' : readAline (p :: rest) = some (x', []) :=
      readAline_iff.mpr ⟨hwf', by rw [List.append_nil, hparams'], fun _ => rfl⟩
    rw [hread] at hread'
    cases hread'
  · intro hextra
    refine ⟨outcome, hparse, fun r => (hgets r).trans ?_⟩
    rw [Option.bind_eq_some_iff]
    constructor
    · rintro ⟨⟨x, extra⟩, hread, hr⟩
      obtain ⟨hwf, hparams, hreason⟩ := readAline_iff.mp hread
      cases extra with
      | nil => exact ⟨x, hwf, by rw [hparams, List.append_nil], hr⟩
      | cons e extra =>
        have hnone := hextra x e extra hwf (fun h => by cases hreason h) hparams
        dsimp only at hr
        rw [hnone] at hr
        cases hr
    · rintro ⟨x, hwf, hparams, hr⟩
      exact ⟨(x, []), readAline_iff.mpr ⟨hwf, by rw [List.append_nil, hparams], fun _ => rfl⟩, hr⟩

theorem alineRight_empty : AlineRight call env [[]] ↔
    (⟨none, [], none, none⟩ : Aline).result call env = none := by
  have hparse : ∃ reply, parseAline call env [[]] = .ok (.invalid reply) := by
    have htime : validTkline [] .minutes = .ok 60 := by decide
    have hread : parseAline call env [[]] =
        if !call.time then .ok (.invalid (.tempLine call.cmd))
        else .ok (.invalid (.needMoreParams call.cmd)) := by
      simp only [parseAline, star, htime, bind, Except.bind]
      rfl
    rw [hread]
    split
    · exact ⟨_, rfl⟩
    · exact ⟨_, rfl⟩
  obtain ⟨reply, hparse⟩ := hparse
  have hwf : (⟨none, [], none, none⟩ : Aline).Wf :=
    ⟨fun p hp => (by cases hp), fun _ => rfl, fun s hs => (by cases hs),
      fun _ r hr => (by cases hr)⟩
  constructor
  · rintro ⟨outcome, houtcome, hright⟩
    rw [hparse, Except.ok.injEq] at houtcome
    subst houtcome
    refine Option.eq_none_iff_forall_ne_some.mpr fun r hr => ?_
    cases (hright r).mpr ⟨_, hwf, rfl, hr⟩
  · intro hnone
    refine ⟨_, hparse, fun r => iff_of_false (fun h => by cases h) ?_⟩
    rintro ⟨⟨time, mask, server, reason⟩, -, hparams, hr⟩
    -- a single parameter is a mask
    cases time with
    | some p => cases hparams
    | none =>
      cases server with
      | some s => cases hparams
      | none =>
        cases reason with
        | some r => cases hparams
        | none =>
          cases hparams
          rw [hnone] at hr
          cases hr

theorem not_alineRight {p : CStr} (hover : ¬readDigits 0 p ≤ LONG_MAX) (rest : List CStr) :
    ¬AlineRight call env (p :: rest) := by
  rintro ⟨outcome, houtcome, -⟩
  have hparse : parseAline call env (p :: rest) = .error .overflow := by
    change (validTkline p .minutes >>= _) = _
    rw [validTkline_eq, if_neg hover]
    rfl
  rw [hparse] at houtcome
  cases houtcome

/-- `valid_tkline` is right just about a time that does not overflow, that is not empty in
minutes, and that is a minute or more in seconds; one that it accepts from an operator is the
same to the next server. `parse_aline` is right just when the first parameter overflows nothing,
is not an empty mask that would do, and nothing follows the reason of a line that would do. -/
theorem ban_args_iff (p : CStr) (unit : TkUnit) (call : AlineCall) (env : AlineEnv)
    (ps : BanParams) :
    (TklineRight p unit ↔ readDigits 0 p ≤ LONG_MAX ∧ (p = [] → unit = .seconds) ∧
      (unit = .seconds → isTime p = true → 60 ≤ readDigits 0 p)) ∧
    (∀ time, validTkline p .minutes = .ok time → time ≠ 0 →
      validTkline (luText time) .seconds = .ok time ∧
      validTkline (dText time) .seconds = .ok time) ∧
    (AlineRight call env ps.list ↔
      readDigits 0 ps.first ≤ LONG_MAX ∧
      (ps.first = [] → (⟨none, [], none, none⟩ : Aline).result call env = none) ∧
      ∀ (x : Aline) e extra, x.Wf → x.reason ≠ none → ps.list = x.params ++ e :: extra →
        x.result call env = none) := by
  refine ⟨tklineRight_iff p unit, fun time htime hne => validTkline_sent htime hne, ?_⟩
  obtain ⟨first, more, hwords⟩ := ps
  change AlineRight call env (first :: more) ↔ readDigits 0 first ≤ LONG_MAX ∧
    (first = [] → (⟨none, [], none, none⟩ : Aline).result call env = none) ∧
    ∀ (x : Aline) e extra, x.Wf → x.reason ≠ none → first :: more = x.params ++ e :: extra →
      x.result call env = none
  by_cases hroom : readDigits 0 first ≤ LONG_MAX
  swap
  · exact iff_of_false (not_alineRight hroom more) fun h => hroom h.1
  rw [and_iff_right hroom]
  rcases eq_or_ne first [] with rfl | hne
  · have hmore : more = [] := by
      cases more with
      | nil => rfl
      | cons p more => exact absurd rfl (hwords [] List.mem_cons_self).ne
    subst hmore
    refine alineRight_empty.trans ⟨fun h => ⟨fun _ => h, fun x e extra _ _ hparams => ?_⟩,
      fun h => h.1 rfl⟩
    have hlen := congrArg List.length hparams
    simp [Aline.params] at hlen
    omega
  · rw [alineRight_iff hne hroom]
    exact ⟨fun h => ⟨fun h' => absurd h' hne, h⟩, fun h => h.2⟩

/-- Half a minute from another server is no time, so that the ban is permanent; twenty digits
overflow; and no digits at all are a minute. -/
theorem times_misread : validTkline "30".toList .seconds = .ok 0 ∧
    validTkline "99999999999999999999".toList .minutes = .error .overflow ∧
    validTkline [] .minutes = .ok 60 ∧
    ¬TklineRight "30".toList .seconds ∧
    ¬TklineRight "99999999999999999999".toList .minutes ∧ ¬TklineRight [] .minutes := by
  unfold TklineRight
  decide +kernel

end BanArgs

end Ircd
