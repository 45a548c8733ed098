import Ircd.AddressConf
import Ircd.Cidr

/-!
The voting on G-lines: `mo_gline`, `do_sgline`, `check_majority_gline` and the
pending list with its expiry.

Both handlers place the line after the vote, whatever the vote says, unless the
voter has voted before.

- `majority_of_placed`: `check_majority_gline` itself asks for three voters.
- `gline_votes_exact`: the runs in which a line is placed by three votes only.
-/

namespace Ircd

/-- `REASONLEN`. -/
def REASONLEN : Nat := 120

/-- `GLINE_PENDING_EXPIRE`. -/
def GLINE_PENDING_EXPIRE : Int := 600

/-- `MAX_TDKLINE_TIME`, in minutes. -/
def MAX_TDKLINE_TIME : Int := 14400

/-- `CONF_GLINE`. -/
def CONF_GLINE : Nat := 0x8000

/-- `GDENY_REJECT`. -/
def GDENY_REJECT : Nat := 2

/-! ### Operators, votes and the pending list -/

/-- What the voting reads of an operator: the buffers of `struct Client` bound
the texts, `server` is the name of its server. -/
structure Oper where
  username : CStr
  host : CStr
  server : CStr
  username_le : username.length ≤ USERLEN
  host_le : host.length ≤ HOSTLEN
  server_le : server.length ≤ HOSTLEN
  deriving DecidableEq, Repr

/-- A request that takes part in the voting. -/
structure GlineVote where
  source : Oper
  user : CStr
  host : CStr
  reason : CStr
  time : Int
  deriving DecidableEq, Repr

/-- `struct gline_pending`. An empty `oper_user2` means that the second place is
free. -/
structure GlinePending where
  user : CStr
  host : CStr
  reason1 : CStr
  operUser1 : CStr
  operHost1 : CStr
  operServer1 : CStr
  operUser2 : CStr := []
  operHost2 : CStr := []
  operServer2 : CStr := []
  lastGlineTime : Int
  deriving DecidableEq, Repr

/-- An item of `gdeny_items`. -/
structure GdenyItem where
  name : CStr
  user : CStr
  host : CStr
  flags : Nat
  deriving DecidableEq, Repr

/-- The settings that the handlers read. -/
structure GlineConf where
  glines : Bool
  glineMinCidr : Int
  glineMinCidr6 : Int
  minNonwildcard : Int
  gdenyItems : List GdenyItem
  deriving DecidableEq, Repr

/-- What happened: a request took part in the voting, or a line was placed. -/
inductive GlineEvent where
  | vote (v : GlineVote)
  | placed (user host reason : CStr) (time : Int)
  deriving DecidableEq, Repr

/-- The settings, the table of address confs, the list `pending_glines`, the
votes and lines so far, and the address of the next conf. -/
structure GlineState where
  conf : GlineConf
  table : AddressTable
  pending : List GlinePending := []
  log : List GlineEvent := []
  nextConf : Nat := 0

/-! ### The arguments of a request -/

/-- `IsKWildChar`. -/
def isKWildChar (c : Char) : Bool := c ∈ ['!', '#', '*', '.', ':', '?', '@']

/-- `valid_wild_card`: it stops at the first character that is one too many,
so a limit below one still asks for a character. -/
def validWildCard (minNonwildcard : Int) (texts : List CStr) : Bool :=
  let nonwild := (texts.flatten.filter fun c => !isKWildChar c).length
  decide (0 < nonwild) && decide (minNonwildcard ≤ nonwild)

/-- `valid_tkline` with `TK_MINUTES`; a `time_t` has 64 bits. -/
def validTkline (p : CStr) : Int :=
  if p.all isDigit then
    let result : Int := ((readDigits 0 p : Nat) : Int).bmod (2 ^ 64)
    let result := if result = 0 then 1 else result
    let result := if MAX_TDKLINE_TIME < result then MAX_TDKLINE_TIME else result
    (result * 60).bmod (2 ^ 64)
  else 0

/-- `valid_comment`: the reason with its cut, or a refusal. -/
def validComment (comment : CStr) : Option CStr :=
  if '"' ∈ comment then none
  else some (if REASONLEN < comment.length then comment.take (REASONLEN - 1) else comment)

/-- What `find_user_host` reads of a client that is named by its nick. -/
structure GlineTarget where
  username : CStr
  host : CStr
  sockhost : CStr
  exemptKline : Bool

/-- `find_user_host` without `NOUSERLOOKUP`; `chase` is `find_chasing`. -/
def findUserHost (chase : CStr → Option GlineTarget) (text : CStr) : Option (CStr × CStr) :=
  match strchr '@' text with
  | some (user, host) =>
    some (if user.isEmpty then ['*'] else strlcpy user (USERLEN * 4 + 1),
      if host.isEmpty then ['*'] else strlcpy host (HOSTLEN + 1))
  | none =>
    if text.head? = some '*' then some (['*'], strlcpy text (HOSTLEN * 4 + 1))
    else
      match chase text with
      | none => none
      | some target =>
        if target.exemptKline then none
        else
          -- a name that was not confirmed by ident loses its `~`
          let user :=
            match strlcpy target.username (USERLEN * 4 + 1) with
            | '~' :: rest => '*' :: rest
            | user => user
          let host :=
            if target.sockhost = [] ∨ target.sockhost = ['0'] then target.host else target.sockhost
          some (user, strlcpy host (HOSTLEN * 4 + 1))

/-- `parse_aline` with the arguments of `mo_gline`: neither a time nor a target
server is taken, and the wildcards are checked. -/
def parseAline (minNonwildcard : Int) (chase : CStr → Option GlineTarget) (parv : List CStr) :
    Option (CStr × CStr × CStr) :=
  match parv with
  | [] => none
  | mask :: rest =>
    if validTkline mask ≠ 0 then none
    else
      match findUserHost chase mask with
      | none => none
      | some (user, host) =>
        if rest.head?.any (ircEq · "ON".toList) then none
        else if '!' ∈ user then none
        else if !validWildCard minNonwildcard [user, host] then none
        else
          match rest with
          | [] => some (user, host, "No Reason".toList)
          | reason :: _ => (validComment reason).map fun reason => (user, host, reason)

/-- A prefix length in the host that is below the limit. -/
def cidrTooWide (conf : GlineConf) (host : CStr) : Bool :=
  match strchr '/' host with
  | none => false
  | some (_, bitlen) =>
    decide (atoi bitlen < if ':' ∈ host then conf.glineMinCidr6 else conf.glineMinCidr)

/-- The checks of `mo_gline` in front of the vote. `operGline` is `IsOperGline`
of the source. -/
def moGlineVote (conf : GlineConf) (now : Int) (source : Oper) (operGline : Bool)
    (chase : CStr → Option GlineTarget) (parv : List CStr) : Option GlineVote :=
  if !conf.glines then none
  else if !operGline then none
  else
    match parseAline conf.minNonwildcard chase parv with
    | none => none
    | some (user, host, reason) =>
      if cidrTooWide conf host then none else some ⟨source, user, host, reason, now⟩

/-- The operator and the three texts of a GLINE from a server: the short form
comes from the operator itself, the long one from its server and names it. -/
def sglineArgs (source : Option Oper) (findPerson : CStr → Option Oper) (parv : List CStr) :
    Option (Oper × CStr × CStr × CStr) :=
  match source, parv with
  | some oper, [user, host, reason] => some (oper, user, host, reason)
  | none, [nick, username, operHost, server, user, host, reason] =>
    match findPerson nick with
    | none => none
    | some oper =>
      if ircEq username oper.username && ircEq operHost oper.host && ircEq server oper.server then
        some (oper, user, host, reason)
      else none
  | _, _ => none

/-- The flags of the first item of `gdeny_items` that matches the operator. -/
def gdenyFlags (conf : GlineConf) (source : Oper) : Nat :=
  ((conf.gdenyItems.find? fun item =>
    matchMask item.name source.server && matchMask item.user source.username &&
      matchMask item.host source.host).map GdenyItem.flags).getD 0

/-- The checks of `do_sgline` in front of the vote. -/
def doSglineVote (conf : GlineConf) (now : Int) (source : Option Oper)
    (findPerson : CStr → Option Oper) (parv : List CStr) : Option GlineVote :=
  match sglineArgs source findPerson parv with
  | none => none
  | some (source, user, host, reason) =>
    if gdenyFlags conf source &&& GDENY_REJECT ≠ 0 then none
    else if !conf.glines then none
    else if !validWildCard conf.minNonwildcard [user, host] then none
    else if cidrTooWide conf host then none
    else some ⟨source, user, host, reason, now⟩

/-! ### The voting -/

namespace GlinePending

/-- The user and host of the entry are those of the request. -/
def sameMask (p : GlinePending) (v : GlineVote) : Bool :=
  ircEq p.user v.user && ircEq p.host v.host

/-- The first vote came from this user name, host or server. -/
def voter1 (p : GlinePending) (v : GlineVote) : Bool :=
  ircEq p.operUser1 v.source.username || ircEq p.operHost1 v.source.host ||
    ircEq p.operServer1 v.source.server

/-- The second vote came from this user name, host or server. -/
def voter2 (p : GlinePending) (v : GlineVote) : Bool :=
  ircEq p.operUser2 v.source.username || ircEq p.operHost2 v.source.host ||
    ircEq p.operServer2 v.source.server

/-- The second place of the entry is filled. -/
def second (p : GlinePending) (v : GlineVote) : GlinePending :=
  { p with
    operUser2 := strlcpy v.source.username (USERLEN + 1)
    operHost2 := strlcpy v.source.host (HOSTLEN + 1)
    operServer2 := strlcpy v.source.server (HOSTLEN + 1)
    lastGlineTime := v.time }

/-- `add_new_majority_gline`, without the list. -/
def first (v : GlineVote) : GlinePending where
  user := strlcpy v.user (USERLEN * 2 + 2)
  host := strlcpy v.host (HOSTLEN * 2 + 2)
  reason1 := strlcpy v.reason (REASONLEN + 1)
  operUser1 := strlcpy v.source.username (USERLEN + 1)
  operHost1 := strlcpy v.source.host (HOSTLEN + 1)
  operServer1 := strlcpy v.source.server (HOSTLEN + 1)
  lastGlineTime := v.time

end GlinePending

/-- What the loop over the pending list comes to. -/
inductive VoteLoop where
  | notFound
  | alreadyVoted
  | trigger (reason1 : CStr)
  | recorded (pending : List GlinePending)
  deriving DecidableEq, Repr

/-- The loop of `check_majority_gline`, which ends at the first entry with the
mask of the request. -/
def voteLoop (v : GlineVote) : List GlinePending → VoteLoop
  | [] => .notFound
  | p :: rest =>
    if p.sameMask v then
      if p.voter1 v then .alreadyVoted
      else if p.operUser2 ≠ [] then
        if p.voter2 v then .alreadyVoted else .trigger p.reason1
      else .recorded (p.second v :: rest)
    else
      match voteLoop v rest with
      | .recorded rest => .recorded (p :: rest)
      | result => result

/-- The results of `check_majority_gline`. -/
inductive GlineResult where
  | alreadyVoted
  | notPlaced
  | placed
  deriving DecidableEq, Repr

/-- The messages and commands that reach the voting, the event that cleans the
pending list up, and changes of settings and of other lines. -/
inductive GlineInput where
  | moGline (now : Int) (source : Oper) (operGline : Bool) (chase : CStr → Option GlineTarget)
      (parv : List CStr)
  | doSgline (now : Int) (source : Option Oper) (findPerson : CStr → Option Oper)
      (parv : List CStr)
  | cleanupGlines (now : Int)
  | rehash (conf : GlineConf)
  | otherLines (table : AddressTable)

/-- The request that the input brings to the vote, if no check stops it. -/
def GlineInput.vote? (conf : GlineConf) : GlineInput → Option GlineVote
  | moGline now source operGline chase parv => moGlineVote conf now source operGline chase parv
  | doSgline now source findPerson parv => doSglineVote conf now source findPerson parv
  | cleanupGlines _ | rehash _ | otherLines _ => none

namespace GlineState

variable (crypt : CStr → CStr → CStr)

/-- `find_is_glined`. -/
def findIsGlined (s : GlineState) (host user : CStr) : Option AccessItem :=
  findConfByAddress crypt s.table
    { name := some host
      addr :=
        match parseNetmask host with
        | .host => none
        | .ipv4 addr _ => some (.inet addr)
        | .ipv6 addr _ => some (.inet6 addr)
      type := CONF_GLINE
      username := some user
      password := none }

/-- `set_local_gline`. -/
def setLocalGline (s : GlineState) (v : GlineVote) (reason : CStr) : GlineState :=
  { s with
    table := addConfByAddress s.table CONF_GLINE ⟨s.nextConf, v.host, v.user, none, false, false⟩
    nextConf := s.nextConf + 1
    log := s.log ++ [.placed v.user v.host reason v.time] }

/-- `cleanup_glines` at the time `now`. -/
def cleanupGlines (s : GlineState) (now : Int) : GlineState :=
  { s with
    pending := s.pending.filter fun p =>
      !(decide (p.lastGlineTime + GLINE_PENDING_EXPIRE ≤ now) ||
        (s.findIsGlined crypt p.host p.user).isSome) }

/-- `check_majority_gline`. -/
def checkMajorityGline (s : GlineState) (v : GlineVote) : GlineResult × GlineState :=
  if (s.findIsGlined crypt v.host v.user).isSome then (.notPlaced, s)
  else
    match voteLoop v s.pending with
    | .notFound => (.notPlaced, { s with pending := GlinePending.first v :: s.pending })
    | .alreadyVoted => (.alreadyVoted, s)
    | .recorded pending => (.notPlaced, { s with pending := pending })
    | .trigger reason1 => (.placed, (s.setLocalGline v reason1).cleanupGlines crypt v.time)

/-- What both handlers do with a request that passed their checks. -/
def requestGline (s : GlineState) (v : GlineVote) : GlineState :=
  match ({ s with log := s.log ++ [.vote v] } : GlineState).checkMajorityGline crypt v with
  | (.alreadyVoted, s) => s
  | (_, s) => s.setLocalGline v v.reason

def step (s : GlineState) (input : GlineInput) : GlineState :=
  match input with
  | .cleanupGlines now => s.cleanupGlines crypt now
  | .rehash conf => { s with conf := conf }
  | .otherLines table => { s with table := table }
  | .moGline .. | .doSgline .. =>
    match input.vote? s.conf with
    | none => s
    | some v => s.requestGline crypt v

end GlineState

/-! ### Three votes -/

/-- Two votes of different operators on different servers, within the time that a
request stays pending. -/
def GlineVote.Apart (v w : GlineVote) : Prop :=
  ¬ (ircEq v.source.username w.source.username = true ∧
      ircEq v.source.host w.source.host = true) ∧
    ¬ ircEq v.source.server w.source.server = true ∧
    v.time - w.time ≤ GLINE_PENDING_EXPIRE ∧ w.time - v.time ≤ GLINE_PENDING_EXPIRE

/-- Three votes for the user and host took part in the voting, by operators apart
from each other. -/
def Backed (past : List GlineEvent) (user host : CStr) : Prop :=
  ∃ v₁ v₂ v₃, [v₁, v₂, v₃].Pairwise GlineVote.Apart ∧
    ∀ v ∈ [v₁, v₂, v₃], .vote v ∈ past ∧ ircEq v.user user = true ∧ ircEq v.host host = true

/-- Every line was placed on three votes before it. -/
def Honest (log : List GlineEvent) : Prop :=
  ∀ past later user host reason time,
    log = past ++ .placed user host reason time :: later → Backed past user host

/-- The state in which the daemon starts: nothing is pending. -/
def GlineState.start (conf : GlineConf) (table : AddressTable) : GlineState :=
  { conf := conf, table := table }

theorem GlineVote.Apart.ne {v w : GlineVote} (h : v.Apart w) : v ≠ w := by
  rintro rfl
  exact h.2.1 (ircEq_refl _)

theorem not_backed_singleton (v : GlineVote) (user host : CStr) :
    ¬ Backed [.vote v] user host := by
  rintro ⟨v₁, v₂, v₃, hapart, hvotes⟩
  have honly : ∀ w ∈ [v₁, v₂, v₃], w = v := by
    intro w hw
    have hmem := (hvotes w hw).1
    rw [List.mem_singleton] at hmem
    exact GlineEvent.vote.inj hmem
  have h₁ := honly v₁ (by simp)
  have h₂ := honly v₂ (by simp)
  have hne := (List.pairwise_cons.mp hapart).1 v₂ (by simp)
  exact hne.ne (h₁.trans h₂.symm)

namespace GlineState

variable (crypt : CStr → CStr → CStr) {s : GlineState}

/-! ### The log -/

theorem checkMajorityGline_log (v : GlineVote) :
    ∃ new, (s.checkMajorityGline crypt v).2.log = s.log ++ new := by
  unfold checkMajorityGline
  split
  · exact ⟨[], by simp⟩
  · split
    · exact ⟨[], by simp⟩
    · exact ⟨[], by simp⟩
    · exact ⟨[], by simp⟩
    · exact ⟨_, rfl⟩

theorem requestGline_log (v : GlineVote) :
    ∃ new, (s.requestGline crypt v).log = s.log ++ .vote v :: new := by
  obtain ⟨new, hlog⟩ := checkMajorityGline_log crypt
    (s := { s with log := s.log ++ [.vote v] }) v
  rw [List.append_assoc, List.singleton_append] at hlog
  unfold requestGline
  split
  · rename_i heq
    rw [heq] at hlog
    exact ⟨new, hlog⟩
  · rename_i heq
    simp only [heq] at hlog
    refine ⟨new ++ [.placed v.user v.host v.reason v.time], ?_⟩
    rw [setLocalGline, hlog, List.append_assoc, List.cons_append]

theorem step_of_no_vote {input : GlineInput} (h : input.vote? s.conf = none) :
    (s.step crypt input).log = s.log ∧ (s.step crypt input).pending ⊆ s.pending := by
  cases input with
  | cleanupGlines now => exact ⟨rfl, List.filter_subset_self _⟩
  | rehash conf => exact ⟨rfl, List.Subset.refl _⟩
  | otherLines table => exact ⟨rfl, List.Subset.refl _⟩
  | moGline now source operGline chase parv =>
    simp only [step, h]
    exact ⟨trivial, List.Subset.refl _⟩
  | doSgline now source findPerson parv =>
    simp only [step, h]
    exact ⟨trivial, List.Subset.refl _⟩

theorem step_of_vote {input : GlineInput} {v : GlineVote} (h : input.vote? s.conf = some v) :
    s.step crypt input = s.requestGline crypt v := by
  cases input with
  | cleanupGlines now => cases h
  | rehash conf => cases h
  | otherLines table => cases h
  | moGline now source operGline chase parv => simp only [step, h]
  | doSgline now source findPerson parv => simp only [step, h]

theorem step_log (input : GlineInput) : ∃ new, (s.step crypt input).log = s.log ++ new := by
  cases h : input.vote? s.conf with
  | none => exact ⟨[], by simp [(step_of_no_vote crypt h).1]⟩
  | some v =>
    rw [step_of_vote crypt h]
    obtain ⟨new, hlog⟩ := requestGline_log crypt (s := s) v
    exact ⟨_, hlog⟩

theorem exec_log (inputs : List GlineInput) :
    ∃ new, (Run.exec (step crypt) s inputs).log = s.log ++ new := by
  induction inputs generalizing s with
  | nil => exact ⟨[], by simp⟩
  | cons input inputs ih =>
    obtain ⟨new, hnew⟩ := step_log crypt (s := s) input
    obtain ⟨rest, hrest⟩ := ih (s := s.step crypt input)
    exact ⟨new ++ rest, by rw [Run.exec_cons, hrest, hnew, List.append_assoc]⟩

/-! ### The first vote -/

theorem requestGline_first (v : GlineVote) (hpending : s.pending = []) (hlog : s.log = []) :
    (s.requestGline crypt v).log =
      [.vote v, .placed v.user v.host v.reason v.time] := by
  have hcheck : ∃ s', ({ s with log := s.log ++ [.vote v] } : GlineState).checkMajorityGline crypt
      v =
      (.notPlaced, s') ∧ s'.log = [.vote v] := by
    unfold checkMajorityGline
    split
    · exact ⟨_, rfl, by simp [hlog]⟩
    · simp only [hpending, voteLoop]
      exact ⟨_, rfl, by simp [hlog]⟩
  obtain ⟨s', heq, hlog'⟩ := hcheck
  simp [requestGline, heq, setLocalGline, hlog']

/-- Nothing is pending and no vote was cast. -/
def Idle (s : GlineState) : Prop := s.pending = [] ∧ s.log = []

theorem Idle.step (h : s.Idle) {input : GlineInput} (hno : input.vote? s.conf = none) :
    (s.step crypt input).Idle := by
  obtain ⟨hlog, hpending⟩ := step_of_no_vote crypt hno
  rw [h.1] at hpending
  exact ⟨List.subset_nil.mp hpending, hlog.trans h.2⟩

theorem Idle.honest_iff (h : s.Idle) (inputs : List GlineInput) :
    Honest (Run.exec (GlineState.step crypt) s inputs).log ↔
      Run.Guarded (GlineState.step crypt) (fun s input => input.vote? s.conf = none) s inputs := by
  induction inputs generalizing s with
  | nil =>
    refine ⟨fun _ => trivial, fun _ past later user host reason time heq => ?_⟩
    rw [Run.exec_nil, h.2] at heq
    simp at heq
  | cons input inputs ih =>
    cases hvote : input.vote? s.conf with
    | none =>
      rw [Run.exec_cons, ih (h.step crypt hvote)]
      exact ⟨fun hrest => ⟨hvote, hrest⟩, fun hall => hall.2⟩
    | some v =>
      refine ⟨fun honest => ?_, fun hall => ?_⟩
      · obtain ⟨new, hlog⟩ := exec_log crypt (s := s.step crypt input) inputs
        rw [step_of_vote crypt hvote, requestGline_first crypt v h.1 h.2] at hlog
        rw [Run.exec_cons, step_of_vote crypt hvote] at honest
        exact absurd (honest [.vote v] new _ _ _ _ hlog) (not_backed_singleton v _ _)
      · exact absurd (hall.1.symm.trans hvote) (by simp)

end GlineState

/-- In a run of the daemon every line is placed on three votes just when no
request reaches the vote: a check in front of it stops each of them. -/
theorem gline_votes_exact (crypt : CStr → CStr → CStr) (conf : GlineConf) (table : AddressTable)
    (inputs : List GlineInput) :
    Honest (Run.exec (GlineState.step crypt) (GlineState.start conf table) inputs).log ↔
      Run.Guarded (GlineState.step crypt) (fun s input => input.vote? s.conf = none)
        (GlineState.start conf table) inputs :=
  GlineState.Idle.honest_iff crypt ⟨rfl, rfl⟩ inputs

/-- A single GLINE of an operator on another server places the line. -/
theorem gline_single_vote :
    ¬ Honest (Run.exec (GlineState.step fun _ salt => salt)
      (GlineState.start ⟨true, 16, 48, 4, []⟩ AddressTable.init)
      [.doSgline 1000 (some ⟨"oper".toList, "oper.net".toList,
        "hub.net".toList, by decide, by decide,
        by decide⟩) (fun _ => none) ["user".toList, "bad.net".toList, "clones".toList]]).log := by
  intro honest
  have hlog := GlineState.requestGline_first (fun _ salt => salt)
    (s := GlineState.start ⟨true, 16, 48, 4, []⟩ AddressTable.init)
    ⟨⟨"oper".toList, "oper.net".toList, "hub.net".toList, by decide, by decide, by decide⟩,
      "user".toList, "bad.net".toList, "clones".toList, 1000⟩ rfl rfl
  rw [Run.exec_cons, Run.exec_nil, GlineState.step_of_vote _ rfl] at honest
  exact not_backed_singleton _ _ _ (honest _ [] _ _ _ _ hlog)

/-! ### The majority -/

/-- Two votes whose operators have different user names, hosts and servers. -/
def GlineVote.Distinct (v w : GlineVote) : Prop :=
  ircEq v.source.username w.source.username = false ∧
    ircEq v.source.host w.source.host = false ∧ ircEq v.source.server w.source.server = false

namespace GlinePending

/-- The first place of the entry holds the vote. -/
structure Holds1 (p : GlinePending) (v : GlineVote) : Prop where
  user : p.user = strlcpy v.user (USERLEN * 2 + 2)
  host : p.host = strlcpy v.host (HOSTLEN * 2 + 2)
  operUser : p.operUser1 = v.source.username
  operHost : p.operHost1 = v.source.host
  operServer : p.operServer1 = v.source.server

/-- The second place of the entry holds the vote, which is for the mask of the
entry. -/
structure Holds2 (p : GlinePending) (v : GlineVote) : Prop where
  mask : p.sameMask v = true
  operUser : p.operUser2 = v.source.username
  operHost : p.operHost2 = v.source.host
  operServer : p.operServer2 = v.source.server

/-- The entry records one vote, or two of distinct operators. -/
def Recorded (log : List GlineEvent) (p : GlinePending) : Prop :=
  ∃ v₁, .vote v₁ ∈ log ∧ p.Holds1 v₁ ∧
    (p.operUser2 ≠ [] → ∃ v₂, .vote v₂ ∈ log ∧ p.Holds2 v₂ ∧ v₁.Distinct v₂)

theorem Recorded.mono {p : GlinePending} {log log' : List GlineEvent} (h : p.Recorded log)
    (hsub : log ⊆ log') : p.Recorded log' := by
  obtain ⟨v₁, hmem₁, hholds₁, hsecond⟩ := h
  refine ⟨v₁, hsub hmem₁, hholds₁, fun htwo => ?_⟩
  obtain ⟨v₂, hmem₂, hholds₂, hdistinct⟩ := hsecond htwo
  exact ⟨v₂, hsub hmem₂, hholds₂, hdistinct⟩

theorem Holds1.distinct {p : GlinePending} {v w : GlineVote} (h : p.Holds1 v)
    (hw : p.voter1 w = false) : v.Distinct w := by
  simp only [voter1, Bool.or_eq_false_iff, h.operUser, h.operHost, h.operServer] at hw
  exact ⟨hw.1.1, hw.1.2, hw.2⟩

theorem Holds2.distinct {p : GlinePending} {v w : GlineVote} (h : p.Holds2 v)
    (hw : p.voter2 w = false) : v.Distinct w := by
  simp only [voter2, Bool.or_eq_false_iff, h.operUser, h.operHost, h.operServer] at hw
  exact ⟨hw.1.1, hw.1.2, hw.2⟩

theorem strlcpy_of_le {text : CStr} {n : Nat} (h : text.length ≤ n) : strlcpy text (n + 1) = text :=
  List.take_of_length_le h

theorem first_recorded {v : GlineVote} {log : List GlineEvent} (hv : .vote v ∈ log) :
    (first v).Recorded log :=
  ⟨v, hv, ⟨rfl, rfl, strlcpy_of_le v.source.username_le, strlcpy_of_le v.source.host_le,
    strlcpy_of_le v.source.server_le⟩, fun htwo => absurd rfl htwo⟩

theorem Recorded.second {p : GlinePending} {v : GlineVote} {log : List GlineEvent}
    (h : p.Recorded log) (hv : .vote v ∈ log) (hmask : p.sameMask v = true)
    (hnew : p.voter1 v = false) : (p.second v).Recorded log := by
  obtain ⟨v₁, hmem₁, hholds₁, -⟩ := h
  have hholds₂ : (p.second v).Holds2 v :=
    ⟨hmask, strlcpy_of_le v.source.username_le, strlcpy_of_le v.source.host_le,
      strlcpy_of_le v.source.server_le⟩
  refine ⟨v₁, hmem₁, ⟨hholds₁.user, hholds₁.host, hholds₁.operUser, hholds₁.operHost,
    hholds₁.operServer⟩, fun _ => ⟨v, hv, hholds₂, hholds₁.distinct hnew⟩⟩

end GlinePending

open GlinePending (Recorded)

theorem voteLoop_recorded {v : GlineVote} {log : List GlineEvent}
    {pending pending' : List GlinePending}
    (h : ∀ p ∈ pending, p.Recorded log) (hv : .vote v ∈ log)
    (hloop : voteLoop v pending = .recorded pending') : ∀ p ∈ pending', p.Recorded log := by
  induction pending generalizing pending' with
  | nil => cases hloop
  | cons p rest ih =>
    have hp := h p (by simp)
    have hrest : ∀ q ∈ rest, q.Recorded log := fun q hq => h q (List.mem_cons_of_mem _ hq)
    unfold voteLoop at hloop
    split at hloop
    · rename_i hmask
      split at hloop
      · cases hloop
      · rename_i hnew
        split at hloop
        · split at hloop <;> cases hloop
        · cases hloop
          intro q hq
          obtain rfl | hq := List.mem_cons.mp hq
          · exact hp.second hv hmask (by simpa using hnew)
          · exact hrest q hq
    · split at hloop
      · rename_i rest' hrec
        cases hloop
        intro q hq
        obtain rfl | hq := List.mem_cons.mp hq
        · exact hp
        · exact ih hrest hrec q hq
      · rename_i hnot
        exact absurd hloop (hnot _)

theorem voteLoop_trigger {v : GlineVote} {pending : List GlinePending} {reason1 : CStr}
    (h : voteLoop v pending = .trigger reason1) :
    ∃ p ∈ pending, p.sameMask v = true ∧ p.voter1 v = false ∧ p.operUser2 ≠ [] ∧
      p.voter2 v = false := by
  induction pending with
  | nil => cases h
  | cons p rest ih =>
    unfold voteLoop at h
    split at h
    · rename_i hmask
      split at h
      · cases h
      · rename_i hnew₁
        split at h
        · rename_i htwo
          split at h
          · cases h
          · rename_i hnew₂
            exact ⟨p, by simp, hmask, by simpa using hnew₁, htwo, by simpa using hnew₂⟩
        · cases h
    · split at h
      · cases h
      · obtain ⟨q, hq, hrest⟩ := ih h
        exact ⟨q, List.mem_cons_of_mem _ hq, hrest⟩

namespace GlineState

variable {crypt : CStr → CStr → CStr} {s : GlineState}

/-- Every pending entry records votes of the log. -/
def AllRecorded (s : GlineState) : Prop := ∀ p ∈ s.pending, p.Recorded s.log

theorem AllRecorded.setLocalGline (h : s.AllRecorded) (v : GlineVote) (reason : CStr) :
    (s.setLocalGline v reason).AllRecorded :=
  fun p hp => (h p hp).mono (List.subset_append_left _ _)

theorem AllRecorded.cleanupGlines (h : s.AllRecorded) (now : Int) :
    (s.cleanupGlines crypt now).AllRecorded :=
  fun p hp => h p (List.mem_of_mem_filter hp)

theorem AllRecorded.checkMajorityGline (h : s.AllRecorded) {v : GlineVote} (hv : .vote v ∈ s.log) :
    (s.checkMajorityGline crypt v).2.AllRecorded := by
  unfold GlineState.checkMajorityGline
  split
  · exact h
  · split
    · intro p hp
      obtain rfl | hp := List.mem_cons.mp hp
      · exact GlinePending.first_recorded hv
      · exact h p hp
    · exact h
    · rename_i hloop
      exact voteLoop_recorded h hv hloop
    · exact (h.setLocalGline v _).cleanupGlines _

theorem AllRecorded.requestGline (h : s.AllRecorded) (v : GlineVote) :
    (s.requestGline crypt v).AllRecorded := by
  have hlogged : ({ s with log := s.log ++ [.vote v] } : GlineState).AllRecorded :=
    fun p hp => (h p hp).mono (List.subset_append_left _ _)
  have hcheck : (({ s with log := s.log ++ [.vote v] } : GlineState).checkMajorityGline
      crypt v).2.AllRecorded := hlogged.checkMajorityGline (by simp)
  unfold GlineState.requestGline
  split
  · rename_i heq
    rw [heq] at hcheck
    exact hcheck
  · rename_i heq
    rw [heq] at hcheck
    exact hcheck.setLocalGline v v.reason

theorem AllRecorded.step (h : s.AllRecorded) (input : GlineInput) :
    (s.step crypt input).AllRecorded := by
  cases hvote : input.vote? s.conf with
  | none =>
    obtain ⟨hlog, hpending⟩ := step_of_no_vote crypt hvote
    intro p hp
    rw [hlog]
    exact h p (hpending hp)
  | some v =>
    rw [step_of_vote crypt hvote]
    exact h.requestGline v

/-- Two votes in the log and this one are of three operators with different user names,
hosts and servers, for a mask that is the same up to the length that an entry keeps. -/
def ThirdVote (s : GlineState) (v : GlineVote) : Prop :=
  ∃ v₁ v₂, ∃ p : GlinePending, .vote v₁ ∈ s.log ∧ .vote v₂ ∈ s.log ∧
    [v₁, v₂, v].Pairwise GlineVote.Distinct ∧ p.Holds1 v₁ ∧ p.Holds2 v₂ ∧ p.sameMask v = true

theorem AllRecorded.majority (h : s.AllRecorded) {v : GlineVote}
    (hplaced : (s.checkMajorityGline crypt v).1 = .placed) :
    s.ThirdVote v := by
  unfold GlineState.checkMajorityGline at hplaced
  split at hplaced
  · cases hplaced
  · split at hplaced
    · cases hplaced
    · cases hplaced
    · cases hplaced
    · rename_i hloop
      obtain ⟨p, hp, hmask, hnew₁, htwo, hnew₂⟩ := voteLoop_trigger hloop
      obtain ⟨v₁, hmem₁, hholds₁, hsecond⟩ := h p hp
      obtain ⟨v₂, hmem₂, hholds₂, hdistinct⟩ := hsecond htwo
      refine ⟨v₁, v₂, p, hmem₁, hmem₂, ?_, hholds₁, hholds₂, hmask⟩
      simp only [List.pairwise_cons, List.mem_cons, List.not_mem_nil, or_false, forall_eq_or_imp,
        forall_eq, IsEmpty.forall_iff, implies_true, List.Pairwise.nil, and_true]
      exact ⟨⟨hdistinct, hholds₁.distinct hnew₁⟩, hholds₂.distinct hnew₂⟩

end GlineState

/-- In every run `check_majority_gline` places a line only on a third vote. -/
theorem majority_of_placed (crypt : CStr → CStr → CStr) (conf : GlineConf) (table : AddressTable)
    (inputs : List GlineInput) (v : GlineVote)
    (hplaced : ((Run.exec (GlineState.step crypt) (GlineState.start conf table)
      inputs).checkMajorityGline crypt v).1 = .placed) :
    (Run.exec (GlineState.step crypt) (GlineState.start conf table) inputs).ThirdVote v :=
  GlineState.AllRecorded.majority
    (Run.inv_exec (fun _ input h _ => h.step input) (fun _ hp => absurd hp List.not_mem_nil)
      (Run.guarded_true _ inputs)) hplaced

def voter (c : Char) : Oper := ⟨[c], [c], [c], by simp [USERLEN], by simp [HOSTLEN], by simp [HOSTLEN]⟩

theorem majority_of_placed_third :
    let vote (now : Int) (c : Char) : GlineInput := .doSgline now (some (voter c)) (fun _ => none)
      ["user".toList, "bad.net".toList, "clones".toList]
    (Run.exec (GlineState.step fun _ salt => salt)
      (GlineState.start ⟨true, 16, 48, 4, []⟩ AddressTable.init)
      [vote 1000 'a', .otherLines AddressTable.init, vote 1100 'b',
        .otherLines AddressTable.init]).ThirdVote
      ⟨voter 'c', "user".toList, "bad.net".toList, "clones".toList, 1200⟩ :=
  majority_of_placed _ _ _ _ _ (by decide +kernel)

end Ircd
