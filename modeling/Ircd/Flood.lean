import Ircd.Client
import Ircd.Dbuf
import Ircd.Lib.TokenBucket

/-!
The flood control of `packet.c`: `parse_client_queued`, `flood_endgrace` and
`flood_recalc` on one connection.

What the handlers of the lines do to the connection is given from outside, for every line
anew; they can register it, end its grace period, make an operator of it or close it. Each
line that is parsed and each recalculation is put on a log with the state it was met in.

- `bucket`: the token bucket that a registered client is under.
- `flood_bucket`: every run keeps to it, and loses no line.
-/

namespace Ircd

/-- `MAX_FLOOD`. -/
def MAX_FLOOD : Nat := 5

/-- `MAX_FLOOD_BURST`. -/
def MAX_FLOOD_BURST : Nat := MAX_FLOOD * 8

/-! ### The receive queue -/

/-- A receive queue with its size counted right. -/
structure Recvq where
  queue : DbufQueue
  counted : queue.Counted

namespace Recvq

def bytes (q : Recvq) : CStr := q.queue.bytes

/-- An empty queue, as `dbuf_clear` leaves it. -/
def empty : Recvq := ⟨.empty, rfl⟩

/-- `dbuf_put`. -/
def put (q : Recvq) (data : CStr) : Recvq := ⟨dbufPut q.queue data, counted_dbufPut q.counted data⟩

theorem counted_of_extract {q : Recvq} {length : Nat} {buffer : CStr} {queue : DbufQueue}
    (h : extractOneLine q.queue = some (length, buffer, queue)) : queue.Counted := by
  obtain ⟨length', buffer', queue', heq, hcounted, -⟩ := extract_one_line_eq q.counted
  rw [heq] at h
  cases h
  exact hcounted

/-- `extract_one_line`. On a queue that is counted right no assertion fails. -/
def extract (q : Recvq) : Nat × CStr × Recvq :=
  match h : extractOneLine q.queue with
  | some (length, buffer, queue) => (length, buffer, ⟨queue, counted_of_extract h⟩)
  | none => (0, [], q)

theorem extract_spec (q : Recvq) :
    (∀ more, refLines (q.bytes ++ more) =
      (if q.extract.1 = 0 then [] else [q.extract.2.1]) ++
        refLines (q.extract.2.2.bytes ++ more)) ∧
      q.extract.2.2.bytes.length ≤ q.bytes.length ∧
      (q.extract.1 ≠ 0 → q.extract.2.2.bytes.length < q.bytes.length) := by
  obtain ⟨length, buffer, queue, heq, hcounted, hsuffix, -, hline⟩ := extract_one_line_eq q.counted
  have hextract : q.extract = (length, buffer, ⟨queue, hcounted⟩) := by
    unfold extract
    split
    · rename_i heq'
      rw [heq] at heq'
      cases heq'
      rfl
    · rename_i heq'
      rw [heq] at heq'
      cases heq'
  rw [hextract]
  refine ⟨fun more => ?_, hsuffix.length_le, fun hne => ?_⟩
  · rcases hline with ⟨hzero, -, hlines⟩ | ⟨hne, -, hlines⟩
    · rw [if_pos hzero]
      exact hlines more
    · rw [if_neg hne]
      exact hlines more
  · rcases hline with ⟨hzero, -⟩ | ⟨-, -, hlines⟩
    · exact absurd hzero hne
    · refine lt_of_le_of_ne hsuffix.length_le fun hsame => ?_
      have hbytes : queue.bytes = q.queue.bytes := hsuffix.eq_of_length hsame
      have hall := congrArg List.length (hlines [])
      rw [hbytes, List.length_cons] at hall
      omega

end Recvq

/-! ### The connection -/

/-- What is noted of a line when it is parsed: whether the client is registered, exempt from
the check of its loop, and past its grace period; and of a recalculation. -/
inductive FloodEntry where
  | line (text : CStr) (registered exempt graceEnded : Bool)
  | recalc (graceEnded : Bool)
  deriving DecidableEq, Repr

/-- A local connection, with the settings that its flood control reads, all that it was sent,
and the log. -/
structure FloodState where
  status : Status := .unknown
  defunct : Bool := false
  oper : Bool := false
  canFlood : Bool := false
  noOperFlood : Bool := false
  trueNoOperFlood : Bool := false
  clientFlood : Nat := 2560
  floodDone : Bool := false
  allowRead : Int := MAX_FLOOD
  sentParsed : Int := 0
  recvq : Recvq := .empty
  received : CStr := []
  log : List FloodEntry := []

/-- What others can do to the connection between its events, and its own lines as well: it is
closed, or its rights and the settings are other ones. -/
inductive FloodChange where
  | exit
  | rights (oper canFlood noOperFlood trueNoOperFlood : Bool) (clientFlood : Nat)

/-- What the handler of a line can do to the connection besides. -/
inductive FloodEffect where
  | change (c : FloodChange)
  | burst
  | setClient
  | setServer
  | endgrace

/-- What happens to a connection. Each turn of the loop of `read_packet` is a `recv`. -/
inductive FloodEvent where
  | recv (data : CStr)
  | recalc
  | change (c : FloodChange)

namespace FloodState

variable (s : FloodState)

/-- `exit_client`. -/
def exit : FloodState := { s with defunct := true, recvq := .empty }

/-- `flood_endgrace`. -/
def floodEndgrace : FloodState :=
  { s with floodDone := true, allowRead := MAX_FLOOD, sentParsed := 0 }

/-- A change that does not need a line. -/
def change : FloodChange → FloodState
  | .exit => s.exit
  | .rights oper canFlood noOperFlood trueNoOperFlood clientFlood =>
    { s with
      oper := oper
      canFlood := canFlood
      noOperFlood := noOperFlood
      trueNoOperFlood := trueNoOperFlood
      clientFlood := clientFlood }

/-- An effect of a handler. `register_local_user` is for unknown connections, `SERVER` for
those that are not clients, and every call of `flood_endgrace` is for a registered client
that is not past its grace period. -/
def effect : FloodEffect → FloodState
  | .change c => s.change c
  | .burst => if s.status = .unknown then { s with allowRead := MAX_FLOOD_BURST } else s
  | .setClient => if s.status = .unknown then { s with status := .client } else s
  | .setServer => if s.status = .client then s else { s with status := .server }
  | .endgrace => if s.status = .client ∧ s.floodDone = false then s.floodEndgrace else s

/-- `client_dopacket`: the line is noted, and its handler runs. `acts` says what the handlers
do. -/
def dopacket (acts : Nat → List FloodEffect) (exempt : Bool) (text : CStr) : FloodState :=
  (acts s.log.length).foldl effect
    { s with log := s.log ++ [.line text (s.status == .client) exempt s.floodDone] }

/-- `checkflood`. -/
def checkflood : Int :=
  if s.noOperFlood ∧ (s.oper ∨ s.canFlood) then (if s.trueNoOperFlood then -1 else 0) else 1

def overLimit (checkflood : Int) : Bool :=
  if 0 < checkflood then s.allowRead ≤ s.sentParsed
  else 4 * s.allowRead ≤ s.sentParsed && checkflood != -1

/-- The queue that `extract_one_line` leaves. -/
def taken (q : Recvq) : FloodState := { s with recvq := q }

/-- The turn of a loop with its line; only a client's lines are counted. -/
def turn (acts : Nat → List FloodEffect) (limit : Option Int) (text : CStr) : FloodState :=
  let s := s.dopacket acts (limit != some 1) text
  if limit.isSome then { s with sentParsed := s.sentParsed + 1 } else s

variable {s}

theorem length_effect (e : FloodEffect) :
    (s.effect e).recvq.bytes.length ≤ s.recvq.bytes.length := by
  unfold effect
  split
  · rename_i c
    cases c with
    | exit => exact Nat.zero_le _
    | rights => exact le_rfl
  · split <;> exact le_rfl
  · split <;> exact le_rfl
  · split <;> exact le_rfl
  · split <;> exact le_rfl

theorem length_effects (es : List FloodEffect) :
    (es.foldl effect s).recvq.bytes.length ≤ s.recvq.bytes.length := by
  induction es generalizing s with
  | nil => exact le_rfl
  | cons e es ih => exact ih.trans (length_effect e)

theorem length_dopacket (acts : Nat → List FloodEffect) (exempt : Bool) (text : CStr) :
    (s.dopacket acts exempt text).recvq.bytes.length ≤ s.recvq.bytes.length :=
  length_effects _

theorem length_turn (acts : Nat → List FloodEffect) (limit : Option Int) (text : CStr) :
    (s.turn acts limit text).recvq.bytes.length ≤ s.recvq.bytes.length := by
  unfold turn
  split <;> exact length_dopacket ..

/-- The loop over the lines of an unknown connection, with the turns that are left. -/
def unknownLoop (acts : Nat → List FloodEffect) : Nat → FloodState → FloodState
  | 0, s => s
  | i + 1, s =>
    if s.defunct then s
    else if s.recvq.extract.1 = 0 then s.taken s.recvq.extract.2.2
    else
      let s := (s.taken s.recvq.extract.2.2).dopacket acts false s.recvq.extract.2.1
      if s.status = .unknown then unknownLoop acts i s else s

/-- The loop over the lines of a server, or of a client with its `checkflood`. -/
def lineLoop (acts : Nat → List FloodEffect) (limit : Option Int) (s : FloodState) : FloodState :=
  if s.defunct || limit.any s.overLimit then s
  else if s.recvq.extract.1 = 0 then s.taken s.recvq.extract.2.2
  else
    lineLoop acts limit ((s.taken s.recvq.extract.2.2).turn acts limit s.recvq.extract.2.1)
termination_by s.recvq.bytes.length
decreasing_by
  rename_i hline
  exact lt_of_le_of_lt (length_turn ..) (s.recvq.extract_spec.2.2 hline)

/-- `IsServer`, `IsConnecting` or `IsHandshake`. -/
def serverLike (s : FloodState) : Bool :=
  s.status == .server || s.status == .connecting || s.status == .handshake

/-- `parse_client_queued`. -/
def parseClientQueued (acts : Nat → List FloodEffect) (s : FloodState) : FloodState :=
  let s := if s.status = .unknown then unknownLoop acts MAX_FLOOD s else s
  if s.serverLike then lineLoop acts none s
  else if s.status = .client then lineLoop acts (some s.checkflood) s
  else s

/-- A turn of the loop of `read_packet`. -/
def readPacket (acts : Nat → List FloodEffect) (data : CStr) (s : FloodState) : FloodState :=
  if s.defunct then s
  else
    let s := parseClientQueued acts
      { s with recvq := s.recvq.put data, received := s.received ++ data }
    if s.defunct then s
    else if !s.serverLike ∧ s.clientFlood < s.recvq.queue.totalSize ∧
        ¬(s.noOperFlood ∧ s.oper) then s.exit
    else s

/-- `flood_recalc`. -/
def floodRecalc (acts : Nat → List FloodEffect) (s : FloodState) : FloodState :=
  let sent := if s.floodDone then s.sentParsed - 2 else 0
  parseClientQueued acts
    { s with
      sentParsed := if sent < 0 then 0 else sent
      log := s.log ++ [.recalc s.floodDone] }

def step (acts : Nat → List FloodEffect) (s : FloodState) : FloodEvent → FloodState
  | .recv data => s.readPacket acts data
  | .recalc => s.floodRecalc acts
  | .change c => s.change c

end FloodState

/-! ### The bucket -/

def FloodEntry.text : FloodEntry → Option CStr
  | .line text .. => some text
  | .recalc _ => none

def FloodEntry.isRecalc : FloodEntry → Bool
  | .line .. => false
  | .recalc _ => true

/-- Noted of a registered client that is not exempt and past its grace period. -/
def FloodEntry.Limited : FloodEntry → Prop
  | .line _ registered exempt graceEnded =>
    registered = true ∧ exempt = false ∧ graceEnded = true
  | .recalc graceEnded => graceEnded = true

/-- The bucket of such a client: each line takes one, and a recalculation gives two back. -/
def bucket : TokenBucket.Bucket FloodEntry where
  spends
    | .line .. => 1
    | .recalc _ => 0
  refills
    | .line .. => 0
    | .recalc _ => 2
  inForce := FloodEntry.Limited
  cap := MAX_FLOOD

theorem spent_bucket (seg : List FloodEntry) :
    bucket.spent seg = (seg.filterMap FloodEntry.text).length := by
  induction seg with
  | nil => rfl
  | cons e seg ih =>
    unfold TokenBucket.Bucket.spent at ih ⊢
    rw [List.map_cons, List.sum_cons, ih]
    cases e with
    | line => exact Nat.add_comm ..
    | recalc => exact Nat.zero_add _

theorem refilled_bucket (seg : List FloodEntry) :
    bucket.refilled seg = 2 * seg.countP FloodEntry.isRecalc := by
  induction seg with
  | nil => rfl
  | cons e seg ih =>
    unfold TokenBucket.Bucket.refilled at ih ⊢
    rw [List.map_cons, List.sum_cons, ih]
    cases e with
    | line => exact Nat.zero_add _
    | recalc =>
      rw [List.countP_cons_of_pos rfl]
      exact (Nat.add_comm ..).trans (Nat.mul_succ ..).symm

namespace FloodState

def parsed (s : FloodState) : List CStr := s.log.filterMap FloodEntry.text

/-- Past its grace period, a client is registered and has the low limit. -/
def Grace (s : FloodState) : Prop :=
  s.floodDone = true → s.status = .client ∧ s.allowRead = MAX_FLOOD

/-- What every run keeps. -/
structure Inv (s : FloodState) : Prop where
  sent : 0 ≤ s.sentParsed
  grace : s.Grace
  metered : TokenBucket.Metered bucket s.log (min s.sentParsed MAX_FLOOD).toNat
  order : s.parsed <+: refLines s.received
  whole : s.defunct = false →
    ∀ more, refLines (s.received ++ more) = s.parsed ++ refLines (s.recvq.bytes ++ more)

theorem inv_start : Inv {} where
  sent := le_rfl
  grace := nofun
  metered := .nil _
  order := List.nil_prefix
  whole := fun _ _ => rfl

/-! ### Handlers -/

/-- What handlers leave alone, and what they leave alone past the grace period. -/
structure Handled (s s' : FloodState) : Prop where
  log : s'.log = s.log
  received : s'.received = s.received
  queue : s'.defunct = false → s.defunct = false ∧ s'.recvq = s.recvq
  sent : 0 ≤ s.sentParsed → 0 ≤ s'.sentParsed
  grace : s.Grace → s'.Grace
  done : s.floodDone = true → s'.sentParsed = s.sentParsed ∧ s'.floodDone = true

variable {s s' : FloodState}

theorem Handled.refl (s : FloodState) : Handled s s :=
  ⟨rfl, rfl, fun h => ⟨h, rfl⟩, id, id, fun h => ⟨rfl, h⟩⟩

theorem Handled.trans {s'' : FloodState} (h : Handled s s') (h' : Handled s' s'') :
    Handled s s'' where
  log := h'.log.trans h.log
  received := h'.received.trans h.received
  queue := by
    intro hlive
    obtain ⟨hlive', hqueue'⟩ := h'.queue hlive
    obtain ⟨hlive'', hqueue''⟩ := h.queue hlive'
    exact ⟨hlive'', hqueue'.trans hqueue''⟩
  sent := fun hsent => h'.sent (h.sent hsent)
  grace := fun hgrace => h'.grace (h.grace hgrace)
  done := by
    intro hdone
    obtain ⟨hsent, hdone'⟩ := h.done hdone
    obtain ⟨hsent', hdone''⟩ := h'.done hdone'
    exact ⟨hsent'.trans hsent, hdone''⟩

theorem handled_change (c : FloodChange) : Handled s (s.change c) := by
  cases c with
  | exit => exact ⟨rfl, rfl, nofun, id, id, fun h => ⟨rfl, h⟩⟩
  | rights => exact ⟨rfl, rfl, fun h => ⟨h, rfl⟩, id, id, fun h => ⟨rfl, h⟩⟩

theorem handled_effect (e : FloodEffect) : Handled s (s.effect e) := by
  cases e with
  | change c => exact handled_change c
  | burst =>
    unfold effect
    dsimp only
    split
    · rename_i hunknown
      refine ⟨rfl, rfl, fun h => ⟨h, rfl⟩, id, fun hgrace hdone => ?_, fun h => ⟨rfl, h⟩⟩
      have hclient := (hgrace hdone).1
      rw [hunknown] at hclient
      cases hclient
    · exact .refl s
  | setClient =>
    unfold effect
    dsimp only
    split
    · exact ⟨rfl, rfl, fun h => ⟨h, rfl⟩, id, fun hgrace hdone => ⟨rfl, (hgrace hdone).2⟩,
        fun h => ⟨rfl, h⟩⟩
    · exact .refl s
  | setServer =>
    unfold effect
    dsimp only
    split
    · exact .refl s
    · rename_i hnot
      exact ⟨rfl, rfl, fun h => ⟨h, rfl⟩, id,
        fun hgrace hdone => absurd (hgrace hdone).1 hnot, fun h => ⟨rfl, h⟩⟩
  | endgrace =>
    unfold effect
    dsimp only
    split
    · rename_i hgrace
      refine ⟨rfl, rfl, fun h => ⟨h, rfl⟩, fun _ => le_rfl, fun _ _ => ⟨hgrace.1, rfl⟩,
        fun hdone => ?_⟩
      rw [hgrace.2] at hdone
      cases hdone
    · exact .refl s

theorem handled_effects (es : List FloodEffect) : Handled s (es.foldl effect s) := by
  induction es generalizing s with
  | nil => exact .refl s
  | cons e es ih => exact (handled_effect e).trans ih

theorem Inv.change (h : s.Inv) (c : FloodChange) : (s.change c).Inv := by
  have hparsed : ∀ s' : FloodState, s'.log = s.log → s'.parsed = s.parsed :=
    fun _ hlog => congrArg (List.filterMap FloodEntry.text) hlog
  cases c with
  | exit => exact ⟨h.sent, h.grace, h.metered, h.order, nofun⟩
  | rights => exact ⟨h.sent, h.grace, h.metered, h.order, h.whole⟩

/-! ### Loops -/

theorem Inv.taken (h : s.Inv) (hnone : s.recvq.extract.1 = 0) :
    (s.taken s.recvq.extract.2.2).Inv where
  sent := h.sent
  grace := h.grace
  metered := h.metered
  order := h.order
  whole := by
    intro hlive more
    have hline := s.recvq.extract_spec.1 more
    rw [if_pos hnone, List.nil_append] at hline
    exact (h.whole hlive more).trans (congrArg (s.parsed ++ ·) hline)

theorem Inv.dopacket (h : s.Inv) (hlive : s.defunct = false) (hline : s.recvq.extract.1 ≠ 0)
    (acts : Nat → List FloodEffect) (exempt : Bool) {count : Int} (hcount : 0 ≤ count)
    (hroom : s.status = .client → exempt = false → s.floodDone = true →
      s.sentParsed < MAX_FLOOD ∧ count = 1)
    (hs' : s' = (s.taken s.recvq.extract.2.2).dopacket acts exempt s.recvq.extract.2.1) :
    Inv { s' with sentParsed := s'.sentParsed + count } := by
  have hhandled : Handled { s.taken s.recvq.extract.2.2 with
      log := s.log ++ [.line s.recvq.extract.2.1 (s.status == .client) exempt s.floodDone] } s' :=
    hs' ▸ handled_effects _
  have hparsed : s'.parsed = s.parsed ++ [s.recvq.extract.2.1] := by
    rw [parsed, hhandled.log, List.filterMap_append]
    rfl
  have hbefore : ∀ more, refLines (s.received ++ more) =
      s.parsed ++ [s.recvq.extract.2.1] ++ refLines (s.recvq.extract.2.2.bytes ++ more) := by
    intro more
    have hnext := s.recvq.extract_spec.1 more
    rw [if_neg hline] at hnext
    rw [h.whole hlive more, hnext, List.append_assoc]
  have hsent := hhandled.sent h.sent
  refine ⟨?_, hhandled.grace h.grace, ?_, ?_, ?_⟩
  · exact add_nonneg hsent hcount
  · have hlog : s'.log =
        s.log ++ [.line s.recvq.extract.2.1 (s.status == .client) exempt s.floodDone] :=
      hhandled.log
    rw [hlog]
    by_cases hforce : s.status = .client ∧ exempt = false ∧ s.floodDone = true
    · obtain ⟨hclient, hexempt, hdone⟩ := hforce
      obtain ⟨hlt, rfl⟩ := hroom hclient hexempt hdone
      have hsame : s'.sentParsed = s.sentParsed := (hhandled.done hdone).1
      have hzero := h.sent
      refine h.metered.within ?_ ?_
      · change (min s.sentParsed MAX_FLOOD).toNat + 1 ≤
          (min (s'.sentParsed + 1) MAX_FLOOD).toNat + 0
        omega
      · change (min (s'.sentParsed + 1) MAX_FLOOD).toNat ≤ MAX_FLOOD
        omega
    · refine h.metered.outside fun hin => hforce ?_
      exact ⟨beq_iff_eq.mp hin.1, hin.2⟩
  · have hlines := hbefore []
    rw [List.append_nil] at hlines
    change s'.parsed <+: refLines s'.received
    rw [hparsed, hhandled.received]
    exact ⟨_, hlines.symm⟩
  · intro hlive' more
    change refLines (s'.received ++ more) = s'.parsed ++ refLines (s'.recvq.bytes ++ more)
    rw [hparsed, hhandled.received, (hhandled.queue hlive').2]
    exact hbefore more

theorem Inv.dopacket_uncounted (h : s.Inv) (hlive : s.defunct = false)
    (hline : s.recvq.extract.1 ≠ 0) (acts : Nat → List FloodEffect) (exempt : Bool)
    (hout : s.status = .client → exempt = true) :
    ((s.taken s.recvq.extract.2.2).dopacket acts exempt s.recvq.extract.2.1).Inv := by
  have hroom : s.status = .client → exempt = false → s.floodDone = true →
      s.sentParsed < MAX_FLOOD ∧ (0 : Int) = 1 := by
    intro hclient hexempt
    rw [hout hclient] at hexempt
    cases hexempt
  have hinv := h.dopacket hlive hline acts exempt le_rfl hroom rfl
  rw [Int.add_zero] at hinv
  exact hinv

theorem Inv.unknownLoop (h : s.Inv) (hunknown : s.status = .unknown)
    (acts : Nat → List FloodEffect) (i : Nat) : (s.unknownLoop acts i).Inv := by
  induction i generalizing s with
  | zero => exact h
  | succ i ih =>
    unfold FloodState.unknownLoop
    split
    · exact h
    · rename_i hlive
      split
      · exact h.taken ‹_›
      · have hinv := h.dopacket_uncounted (Bool.eq_false_iff.mpr hlive) ‹_› acts false
          fun hclient => absurd (hunknown.symm.trans hclient) (by decide)
        dsimp only
        split
        · exact ih hinv ‹_›
        · exact hinv

theorem Inv.lineLoop (h : s.Inv) (acts : Nat → List FloodEffect) (limit : Option Int) :
    (s.lineLoop acts limit).Inv := by
  induction s using lineLoop.induct acts limit with
  | case1 s hstop =>
    rw [FloodState.lineLoop, if_pos hstop]
    exact h
  | case2 s hgo hnone =>
    rw [FloodState.lineLoop, if_neg hgo, if_pos hnone]
    exact h.taken hnone
  | case3 s hgo hline ih =>
    rw [FloodState.lineLoop, if_neg hgo, if_neg hline]
    apply ih
    simp only [Bool.or_eq_true, not_or, Bool.not_eq_true] at hgo
    unfold turn
    cases limit with
    | none => exact h.dopacket_uncounted hgo.1 hline acts true fun _ => rfl
    | some checkflood =>
      refine h.dopacket hgo.1 hline acts _ (by decide) (fun _ hexempt hdone => ⟨?_, rfl⟩) rfl
      have hone : checkflood = 1 := by simpa using hexempt
      have hlimit : s.overLimit checkflood = false := hgo.2
      unfold overLimit at hlimit
      rw [hone, if_pos (by decide), (h.grace hdone).2] at hlimit
      exact lt_of_not_ge (of_decide_eq_false hlimit)

theorem Inv.parseClientQueued (h : s.Inv) (acts : Nat → List FloodEffect) :
    (s.parseClientQueued acts).Inv := by
  have hrest : ∀ s : FloodState, s.Inv →
      (if s.serverLike then s.lineLoop acts none
        else if s.status = .client then s.lineLoop acts (some s.checkflood) else s).Inv := by
    intro s h
    split
    · exact h.lineLoop acts none
    · split
      · exact h.lineLoop acts _
      · exact h
  unfold FloodState.parseClientQueued
  apply hrest
  split
  · exact h.unknownLoop ‹_› acts _
  · exact h

/-! ### Events -/

theorem Inv.readPacket (h : s.Inv) (acts : Nat → List FloodEffect) (data : CStr) :
    (s.readPacket acts data).Inv := by
  unfold FloodState.readPacket
  split
  · exact h
  · rename_i hlive
    have hput : Inv { s with recvq := s.recvq.put data, received := s.received ++ data } := by
      have hwhole := h.whole (Bool.eq_false_iff.mpr hlive)
      refine ⟨h.sent, h.grace, h.metered, ?_, fun _ more => ?_⟩
      · exact ⟨_, (hwhole data).symm⟩
      · have hbytes : (s.recvq.put data).bytes = s.recvq.bytes ++ data := bytes_dbufPut ..
        change refLines (s.received ++ data ++ more) =
          s.parsed ++ refLines ((s.recvq.put data).bytes ++ more)
        rw [hbytes, List.append_assoc, List.append_assoc]
        exact hwhole (data ++ more)
    have hinv := hput.parseClientQueued acts
    dsimp only
    split
    · exact hinv
    · split
      · exact hinv.change .exit
      · exact hinv

theorem Inv.floodRecalc (h : s.Inv) (acts : Nat → List FloodEffect) :
    (s.floodRecalc acts).Inv := by
  unfold FloodState.floodRecalc
  apply Inv.parseClientQueued
  have hparsed :
      (s.log ++ [FloodEntry.recalc s.floodDone]).filterMap FloodEntry.text = s.parsed := by
    rw [List.filterMap_append]
    exact List.append_nil _
  have hsent := h.sent
  refine ⟨?_, h.grace, ?_, ?_, ?_⟩
  · dsimp only
    split <;> omega
  · cases hdone : s.floodDone with
    | false => exact h.metered.outside (by simp [bucket, FloodEntry.Limited])
    | true =>
      refine h.metered.within ?_ ?_
      · change (min s.sentParsed MAX_FLOOD).toNat + 0 ≤
          (min (if s.sentParsed - 2 < 0 then 0 else s.sentParsed - 2) MAX_FLOOD).toNat + 2
        split <;> omega
      · change (min (if s.sentParsed - 2 < 0 then 0 else s.sentParsed - 2) MAX_FLOOD).toNat ≤
          MAX_FLOOD
        omega
  · exact (List.IsPrefix.trans ⟨[], (List.append_nil _).trans hparsed⟩ h.order)
  · intro hlive more
    exact (h.whole hlive more).trans (congrArg (· ++ _) hparsed.symm)

theorem Inv.step (h : s.Inv) (acts : Nat → List FloodEffect) (e : FloodEvent) :
    (s.step acts e).Inv := by
  cases e with
  | recv data => exact h.readPacket acts data
  | recalc => exact h.floodRecalc acts
  | change c => exact h.change c

end FloodState

end Ircd
