import Ircd.Lib.Loops
import Ircd.Membership
import Ircd.ModeSend

/-!
Lines to many clients at once: `sendto_channel_butone`, `sendto_common_channels_local` and
`sendto_match_servs` of `send.c`. Each call takes a new serial number and leaves it with
the connections that it has served.

`Sent` says what a call has done by some point of its loops: who has the number of the
call has the line, and nobody else. One send keeps it (`Sent.mark`).
-/

namespace Ircd

open Function

/-! ### Send queues -/

/-- `CAP_LL`. -/
def CAP_LL : Nat := 0x10

/-- A line on a send queue: one of those that are sent to many, or another. -/
inductive QueuedLine where
  | line (buf : CStr)
  | other (buf : CStr)
  deriving DecidableEq, Repr

def QueuedLine.len : QueuedLine → Nat
  | .line buf => buf.length + 2
  | .other buf => buf.length + 2

/-- A send queue: the bytes that wait in it, and what was ever put on it. -/
structure SendQueue where
  length : Nat
  items : List QueuedLine

/-- What the sends find: the limit of each queue, what `send` leaves of the bytes that
wait for a connection (`none` for an error), and the text of the notices and of the
introductions that a send can bring with it. -/
structure SendEnv where
  getSendq : Cid → Nat
  write : Cid → Nat → Option Nat
  notice : Cid → Cid → CStr
  introduction : Cid → Cid → List CStr

/-- Clients and channels, with the serial numbers and the send queues.
`lazyLinkClientExists` tells which clients a lazy leaf knows. -/
structure FanOut where
  base : MemberState
  currentSerial : Nat := 0
  serial : Cid → Nat := fun _ => 0
  sendq : Cid → SendQueue := fun _ => ⟨0, []⟩
  caps : Cid → Nat := fun _ => 0
  hub : Bool := false
  operList : List Cid := []
  lazyLinkClientExists : Cid → Cid → Bool := fun _ _ => false

namespace FanOut

variable (env : SendEnv) (s : FanOut)

def client (c : Cid) : Client := s.base.clients c

/-- `dead_link_on_write`. -/
def deadLinkOnWrite (dest : Cid) : FanOut :=
  if (s.client dest).isDefunct then s
  else
    { s with
      base :=
        { s.base with
          clients := update s.base.clients dest ((s.client dest).setFlag .deadsocket) }
      sendq := update s.sendq dest { s.sendq dest with length := 0 } }

/-- `send_queued_write`. -/
def sendQueuedWrite (dest : Cid) : FanOut :=
  if (s.client dest).isDead ∨ (s.sendq dest).length = 0 then s
  else
    match env.write dest (s.sendq dest).length with
    | some left => { s with sendq := update s.sendq dest { s.sendq dest with length := left } }
    | none => s.deadLinkOnWrite dest

/-- The part of `send_message` for a line that there is room for. -/
def putLine (dest : Cid) (item : QueuedLine) : FanOut :=
  let q := s.sendq dest
  let s :=
    { s with sendq := update s.sendq dest ⟨q.length + item.len, q.items ++ [item]⟩ }
  if (if (s.client dest).isServer then 1024 else 4096) < q.length + item.len then
    s.sendQueuedWrite env dest
  else s

def exceeds (dest : Cid) (item : QueuedLine) : Bool :=
  env.getSendq dest < (s.sendq dest).length + item.len

/-- `send_message` to a client. -/
def sendToClient (dest : Cid) (item : QueuedLine) : FanOut :=
  if s.exceeds env dest item then s.deadLinkOnWrite dest else s.putLine env dest item

/-- `sendto_realops_flags` with `UMODE_ALL`, about a link. -/
def noticeOpers (link : Cid) : FanOut :=
  s.operList.foldl (fun s oper =>
    if .servnotice ∈ (s.client oper).umodes ∧ !(s.client (s.client oper).from).isDead then
      s.sendToClient env (s.client oper).from (.other (env.notice link oper))
    else s) s

/-- `send_message`: the operators hear of a server whose queue is full. -/
def sendMessage (dest : Cid) (item : QueuedLine) : FanOut :=
  if s.exceeds env dest item then
    (if (s.client dest).isServer then s.noticeOpers env dest else s).deadLinkOnWrite dest
  else s.putLine env dest item

/-- `client_burst_if_needed` on a lazy link. -/
def clientBurstIfNeeded (dest source : Cid) : FanOut :=
  if s.hub ∧ s.caps dest &&& CAP_LL ≠ 0 ∧ !s.lazyLinkClientExists source dest then
    let s :=
      if (s.client source).isClient then
        (env.introduction dest source).foldl (fun s buf =>
          if (s.client dest).isDead then s else s.sendMessage env dest (.other buf)) s
      else s
    { s with
      lazyLinkClientExists := fun c link =>
        s.lazyLinkClientExists c link || (c == source && link == dest) }
  else s

/-- `send_message_remote`. A link that is a client, where a ghost is exited, is not
followed. -/
def sendMessageRemote (dest source : Cid) (item : QueuedLine) : Option FanOut :=
  if !(s.client dest).myConnect then some (s.noticeOpers env dest)
  else
    let s := s.clientBurstIfNeeded env dest source
    if !(s.client source).myClient ∧ (s.client dest).isClient ∧
      dest = (s.client source).from then none
    else some (s.sendMessage env dest item)

/-- The connection has been served by this call. -/
def mark (c : Cid) : FanOut := { s with serial := update s.serial c s.currentSerial }

/-- `++current_serial`. -/
def nextSerial : FanOut := { s with currentSerial := s.currentSerial + 1 }

end FanOut

/-! ### The senders -/

/-- The three lines of `sendto_channel_butone`. -/
structure ChannelLines where
  localBuf : CStr
  remoteBuf : CStr
  uidBuf : CStr

def channelLines (source : Client) (chname command text : CStr) : ChannelLines :=
  let rest := ' ' :: command ++ ' ' :: chname ++ ' ' :: text
  { localBuf := sendFormat
      (if source.isServer then ':' :: source.name ++ rest
        else ':' :: source.name ++ '!' :: source.username ++ '@' :: source.host ++ rest)
    remoteBuf := sendFormat (':' :: source.name ++ rest)
    uidBuf := sendFormat (':' :: source.ID ++ rest) }

namespace FanOut

variable (env : SendEnv) (s : FanOut)

/-- The loop body of `sendto_channel_butone`. -/
def butoneMember (one : Option Cid) (source : Cid) (lines : ChannelLines) (s : FanOut) (m : Nat) :
    Option FanOut :=
  match s.base.member m with
  | none => some s
  | some ms =>
    let target := ms.client
    let link := (s.client target).from
    if (s.client target).isDefunct ∨ .deaf ∈ (s.client target).umodes ∨ one = some link then some s
    else if (s.client target).myClient then
      if s.serial target ≠ s.currentSerial then
        some ((s.sendMessage env target (.line lines.localBuf)).mark target)
      else some s
    else if s.serial link ≠ s.currentSerial then
      (s.sendMessageRemote env link source
        (.line (if s.caps link &&& CAP_TS6 ≠ 0 then lines.uidBuf else lines.remoteBuf))).map
          fun s => s.mark link
    else some s

/-- `sendto_channel_butone`. -/
def sendtoChannelButone (one : Option Cid) (source : Cid) (ch : Nat) (command text : CStr) :
    Option FanOut :=
  let chname := ((s.base.chans ch).map ChannelData.chname).getD []
  (s.base.members ch).foldlM
    (butoneMember env one source (channelLines (s.client source) chname command text))
    s.nextSerial

/-- The inner loop body of `sendto_common_channels_local`. -/
def commonMember (user : Cid) (buf : CStr) (s : FanOut) (m : Nat) : FanOut :=
  match s.base.member m with
  | none => s
  | some ms =>
    let target := ms.client
    if target = user ∨ (s.client target).isDefunct ∨ s.serial target = s.currentSerial then s
    else (s.mark target).sendMessage env target (.line buf)

/-- The outer loop body of `sendto_common_channels_local`. -/
def commonChannel (user : Cid) (buf : CStr) (s : FanOut) (m : Nat) : FanOut :=
  match s.base.member m with
  | none => s
  | some ms => (s.base.locmembers ms.chptr).foldl (commonMember env user buf) s

/-- `sendto_common_channels_local`. -/
def sendtoCommonChannelsLocal (user : Cid) (touser : Bool) (text : CStr) : FanOut :=
  let buf := sendFormat text
  let s := (s.base.channel user).foldl (commonChannel env user buf) s.nextSerial
  if touser ∧ (s.client user).myConnect ∧ !(s.client user).isDead ∧
      s.serial user ≠ s.currentSerial then
    s.sendMessage env user (.line buf)
  else s

/-- The loop body of `sendto_match_servs`, with what `match` says of a name and the line
that `sendto_anywhere` makes for a server. -/
def matchServ (source : Cid) (hit : CStr → Bool) (cap : Nat) (buf : Cid → CStr) (s : FanOut)
    (target : Cid) : Option FanOut :=
  let link := (s.client target).from
  if (s.client target).isMe ∨ link = (s.client source).from ∨ s.serial link = s.currentSerial ∨
      !hit (s.client target).name then some s
  else
    let s := s.mark link
    if s.caps link &&& cap = 0 ∨ (s.client link).isDead then some s
    else s.sendMessageRemote env link source (.other (buf target))

/-- `sendto_match_servs`, with `global_serv_list`. -/
def sendtoMatchServs (globalServList : List Cid) (source : Cid) (hit : CStr → Bool) (cap : Nat)
    (buf : Cid → CStr) : Option FanOut :=
  globalServList.foldlM (matchServ env source hit cap buf) s.nextSerial

end FanOut

/-! ### One send -/

/-- The line that is sent to many. -/
def QueuedLine.line? : QueuedLine → Option CStr
  | .line buf => some buf
  | .other _ => none

namespace FanOut

variable {P : Cid → Prop} {s t u : FanOut} {env : SendEnv} {dest c : Cid} {item : QueuedLine}

/-- The lines that were sent to many and put on a queue. -/
def lines (s : FanOut) (c : Cid) : List CStr := (s.sendq c).items.filterMap QueuedLine.line?

/-- What stays through a send: all but the queues, except that connections for which `P`
holds may have died. -/
structure Frame (P : Cid → Prop) (s t : FanOut) : Prop where
  base : t.base = { s.base with clients := t.base.clients }
  client : ∀ c, t.client c = s.client c ∨ P c ∧ t.client c = (s.client c).setFlag .deadsocket
  currentSerial : t.currentSerial = s.currentSerial
  caps : t.caps = s.caps
  operList : t.operList = s.operList

theorem setFlag_setFlag (x : Client) (flag : Flag) :
    (x.setFlag flag).setFlag flag = x.setFlag flag := by
  simp [Client.setFlag]

theorem Frame.refl (P : Cid → Prop) (s : FanOut) : Frame P s s :=
  ⟨rfl, fun _ => Or.inl rfl, rfl, rfl, rfl⟩

theorem Frame.trans (h : Frame P s t) (h' : Frame P t u) : Frame P s u where
  base := h'.base.trans (by rw [h.base])
  client c := by
    rcases h'.client c with hc | ⟨hP, hc⟩
    · rw [hc]
      exact h.client c
    · refine Or.inr ⟨hP, ?_⟩
      rcases h.client c with hc' | ⟨-, hc'⟩
      · rw [hc, hc']
      · rw [hc, hc', setFlag_setFlag]
  currentSerial := h'.currentSerial.trans h.currentSerial
  caps := h'.caps.trans h.caps
  operList := h'.operList.trans h.operList

theorem Frame.umodes (h : Frame P s t) (c : Cid) : (t.client c).umodes = (s.client c).umodes := by
  rcases h.client c with hc | ⟨-, hc⟩ <;> rw [hc]; rfl

theorem Frame.from (h : Frame P s t) (c : Cid) : (t.client c).from = (s.client c).from := by
  rcases h.client c with hc | ⟨-, hc⟩ <;> rw [hc]; rfl

theorem Frame.status (h : Frame P s t) (c : Cid) : (t.client c).status = (s.client c).status := by
  rcases h.client c with hc | ⟨-, hc⟩ <;> rw [hc]; rfl

theorem Frame.localClient (h : Frame P s t) (c : Cid) :
    (t.client c).localClient = (s.client c).localClient := by
  rcases h.client c with hc | ⟨-, hc⟩ <;> rw [hc]; rfl

theorem Frame.myConnect (h : Frame P s t) (c : Cid) :
    (t.client c).myConnect = (s.client c).myConnect := by
  rw [Client.myConnect, Client.myConnect, h.localClient]

theorem Frame.defunct (h : Frame P s t) (hc : (s.client c).isDefunct = true) :
    (t.client c).isDefunct = true := by
  rcases h.client c with heq | ⟨-, heq⟩
  · rw [heq, hc]
  · rw [heq]
    simp [Client.isDefunct, Client.isDead, Client.setFlag]

/-- A send that puts no line of those on a queue. -/
structure Quiet (P : Cid → Prop) (s t : FanOut) : Prop extends Frame P s t where
  serial : t.serial = s.serial
  lines : ∀ c, t.lines c = s.lines c

theorem Quiet.refl (P : Cid → Prop) (s : FanOut) : Quiet P s s :=
  ⟨Frame.refl P s, rfl, fun _ => rfl⟩

theorem Quiet.trans (h : Quiet P s t) (h' : Quiet P t u) : Quiet P s u :=
  ⟨h.toFrame.trans h'.toFrame, h'.serial.trans h.serial,
    fun c => (h'.lines c).trans (h.lines c)⟩

/-- A line has been put on the queue of `dest`, unless the connection has died. -/
structure Puts (P : Cid → Prop) (dest : Cid) (new : List CStr) (s t : FanOut) : Prop
    extends Frame P s t where
  serial : t.serial = s.serial
  others : ∀ c, c ≠ dest → t.lines c = s.lines c
  dest : t.lines dest = s.lines dest ++ new ∨
    t.lines dest = s.lines dest ∧ (t.client dest).isDefunct = true

theorem Quiet.puts (h : Quiet P s t) {new : List CStr} (h' : Puts P dest new t u) :
    Puts P dest new s u := by
  refine ⟨h.toFrame.trans h'.toFrame, h'.serial.trans h.serial, fun c hc => ?_, ?_⟩
  · rw [h'.others c hc, h.lines]
  · rw [← h.lines]
    exact h'.dest

theorem Puts.quiet {new : List CStr} (h : Puts P dest new s t) (hnew : new = []) :
    Quiet P s t := by
  subst hnew
  refine ⟨h.toFrame, h.serial, fun c => ?_⟩
  by_cases hc : c = dest
  · subst hc
    rcases h.dest with heq | ⟨heq, -⟩
    · rw [heq, List.append_nil]
    · exact heq
  · exact h.others c hc

theorem lines_update (s : FanOut) (q : SendQueue) (c : Cid) :
    ({ s with sendq := update s.sendq dest q } : FanOut).lines c =
      if c = dest then q.items.filterMap QueuedLine.line? else s.lines c := by
  unfold lines
  by_cases hc : c = dest
  · subst hc
    simp
  · simp [hc]

theorem deadLinkOnWrite_quiet (hP : P dest) : Quiet P s (s.deadLinkOnWrite dest) ∧
    ((s.deadLinkOnWrite dest).client dest).isDefunct = true := by
  unfold deadLinkOnWrite
  split
  · rename_i hdefunct
    exact ⟨Quiet.refl P s, hdefunct⟩
  · refine ⟨⟨⟨rfl, fun c => ?_, rfl, rfl, rfl⟩, rfl, fun c => ?_⟩, ?_⟩
    · by_cases hc : c = dest
      · subst hc
        exact Or.inr ⟨hP, by simp [client]⟩
      · exact Or.inl (by simp [client, hc])
    · unfold lines
      by_cases hc : c = dest
      · subst hc
        simp
      · simp [hc]
    · simp [client, Client.isDefunct, Client.isDead, Client.setFlag]

theorem sendQueuedWrite_quiet (hP : P dest) : Quiet P s (s.sendQueuedWrite env dest) := by
  unfold sendQueuedWrite
  split
  · exact Quiet.refl P s
  · split
    · refine ⟨⟨rfl, fun c => Or.inl rfl, rfl, rfl, rfl⟩, rfl, fun c => ?_⟩
      rw [lines_update]
      split
      · rename_i hc
        rw [hc]
        rfl
      · rfl
    · exact (deadLinkOnWrite_quiet hP).1

theorem putLine_puts (hP : P dest) :
    Puts P dest item.line?.toList s (s.putLine env dest item) ∧
      (s.putLine env dest item).lines dest = s.lines dest ++ item.line?.toList := by
  unfold putLine
  dsimp only
  set t : FanOut := { s with
    sendq := update s.sendq dest
      ⟨(s.sendq dest).length + item.len, (s.sendq dest).items ++ [item]⟩ } with ht
  have hlines : ∀ c, t.lines c =
      if c = dest then s.lines dest ++ item.line?.toList else s.lines c := by
    intro c
    rw [ht, lines_update, lines, List.filterMap_append]
    cases item <;> rfl
  have hput : Puts P dest item.line?.toList s t := by
    refine ⟨⟨rfl, fun c => Or.inl rfl, rfl, rfl, rfl⟩, rfl, fun c hc => ?_, Or.inl ?_⟩
    · rw [hlines, if_neg hc]
    · rw [hlines, if_pos rfl]
  have hdest : t.lines dest = s.lines dest ++ item.line?.toList := by rw [hlines, if_pos rfl]
  have hquiet : Quiet P t (if (if (t.client dest).isServer then 1024 else 4096) <
      (s.sendq dest).length + item.len then t.sendQueuedWrite env dest else t) := by
    split_ifs
    · exact sendQueuedWrite_quiet hP
    · exact Quiet.refl P t
    · exact sendQueuedWrite_quiet hP
    · exact Quiet.refl P t
  refine ⟨⟨hput.toFrame.trans hquiet.toFrame, hquiet.serial.trans hput.serial, fun c hc => ?_,
    Or.inl ?_⟩, ?_⟩
  · exact (hquiet.lines c).trans (hput.others c hc)
  · exact (hquiet.lines dest).trans hdest
  · exact (hquiet.lines dest).trans hdest

theorem sendToClient_quiet (hP : P dest) (buf : CStr) :
    Quiet P s (s.sendToClient env dest (.other buf)) := by
  unfold sendToClient
  split
  · exact (deadLinkOnWrite_quiet hP).1
  · exact (putLine_puts hP).1.quiet rfl

theorem noticeOpers_quiet (hP : ∀ oper ∈ s.operList, P (s.client oper).from) (link : Cid) :
    Quiet P s (s.noticeOpers env link) := by
  unfold noticeOpers
  have hfold : ∀ (l : List Cid) (u : FanOut), Quiet P s u → (∀ oper ∈ l, oper ∈ s.operList) →
      Quiet P s (l.foldl (fun s oper =>
        if .servnotice ∈ (s.client oper).umodes ∧ !(s.client (s.client oper).from).isDead then
          s.sendToClient env (s.client oper).from (.other (env.notice link oper))
        else s) u) := by
    intro l
    induction l with
    | nil => exact fun u hu _ => hu
    | cons oper l ih =>
      intro u hu hl
      have hoper : P (u.client oper).from := by
        rw [hu.from]
        exact hP oper (hl oper List.mem_cons_self)
      rw [List.foldl_cons]
      apply ih
      · split
        · exact hu.trans (sendToClient_quiet hoper _)
        · exact hu
      · exact fun o ho => hl o (List.mem_cons_of_mem _ ho)
  exact hfold _ _ (Quiet.refl P s) fun _ ho => ho

theorem sendMessage_puts (env : SendEnv) (item : QueuedLine) (hP : P dest)
    (hopers : ∀ oper ∈ s.operList, P (s.client oper).from) :
    Puts P dest item.line?.toList s (s.sendMessage env dest item) := by
  unfold sendMessage
  split
  · have hnotice : Quiet P s (if (s.client dest).isServer then s.noticeOpers env dest else s) := by
      split
      · exact noticeOpers_quiet hopers dest
      · exact Quiet.refl P s
    obtain ⟨hquiet, hdefunct⟩ :=
      deadLinkOnWrite_quiet (s := if (s.client dest).isServer then s.noticeOpers env dest else s) hP
    have hboth := hnotice.trans hquiet
    exact ⟨hboth.toFrame, hboth.serial, fun c _ => hboth.lines c,
      Or.inr ⟨hboth.lines dest, hdefunct⟩⟩
  · exact (putLine_puts hP).1

theorem Quiet.opers (h : Quiet P s t) (hopers : ∀ oper ∈ s.operList, P (s.client oper).from) :
    ∀ oper ∈ t.operList, P (t.client oper).from := by
  intro oper hoper
  rw [h.from]
  rw [h.operList] at hoper
  exact hopers oper hoper

theorem clientBurstIfNeeded_quiet (env : SendEnv) (hP : P dest)
    (hopers : ∀ oper ∈ s.operList, P (s.client oper).from) (source : Cid) :
    Quiet P s (s.clientBurstIfNeeded env dest source) := by
  unfold clientBurstIfNeeded
  have hfold : ∀ (l : List CStr) (u : FanOut), Quiet P s u →
      Quiet P s (l.foldl (fun s buf =>
        if (s.client dest).isDead then s else s.sendMessage env dest (.other buf)) u) := by
    intro l
    induction l with
    | nil => exact fun u hu => hu
    | cons buf l ih =>
      intro u hu
      rw [List.foldl_cons]
      apply ih
      split
      · exact hu
      · exact hu.trans ((sendMessage_puts env _ hP (hu.opers hopers)).quiet rfl)
  split
  · have hburst : Quiet P s (if (s.client source).isClient then
        (env.introduction dest source).foldl (fun s buf =>
          if (s.client dest).isDead then s else s.sendMessage env dest (.other buf)) s
        else s) := by
      split
      · exact hfold _ _ (Quiet.refl P s)
      · exact Quiet.refl P s
    exact ⟨⟨hburst.base, hburst.client, hburst.currentSerial, hburst.caps, hburst.operList⟩,
      hburst.serial, hburst.lines⟩
  · exact Quiet.refl P s

theorem sendMessageRemote_puts (env : SendEnv) (item : QueuedLine) (hP : P dest)
    (hopers : ∀ oper ∈ s.operList, P (s.client oper).from)
    (hlocal : (s.client dest).myConnect = true) (hserver : (s.client dest).isClient = false)
    (source : Cid) :
    ∃ t, s.sendMessageRemote env dest source item = some t ∧
      Puts P dest item.line?.toList s t := by
  have hburst := clientBurstIfNeeded_quiet env hP hopers source
  have hserver' : ((s.clientBurstIfNeeded env dest source).client dest).isClient = false := by
    rw [Client.isClient, hburst.status]
    exact hserver
  refine ⟨(s.clientBurstIfNeeded env dest source).sendMessage env dest item, ?_,
    hburst.puts (sendMessage_puts env item hP (hburst.opers hopers))⟩
  unfold sendMessageRemote
  simp [hlocal, hserver']

/-! ### One call -/

/-- What a call has done by some point, for the lines `buf` that are due to the
connections `due`: who has the number of the call has got the line, or has died, and
nobody else has. -/
structure Sent (P due : Cid → Prop) (buf : Cid → CStr) (s u : FanOut) : Prop
    extends Frame P s u where
  served : ∀ c, u.serial c = u.currentSerial → due c ∧ (u.lines c = s.lines c ++ [buf c] ∨
    u.lines c = s.lines c ∧ (u.client c).isDefunct = true)
  others : ∀ c, u.serial c ≠ u.currentSerial → u.lines c = s.lines c
  bounded : ∀ c, u.serial c ≤ u.currentSerial

/-- A later state of the same call. -/
structure Later (P : Cid → Prop) (u v : FanOut) : Prop extends Frame P u v where
  serial : ∀ c, u.serial c = u.currentSerial → v.serial c = v.currentSerial

variable {due : Cid → Prop} {buf : Cid → CStr} {v : FanOut}

theorem Later.refl (P : Cid → Prop) (u : FanOut) : Later P u u := ⟨Frame.refl P u, fun _ h => h⟩

theorem Later.trans (h : Later P s t) (h' : Later P t u) : Later P s u :=
  ⟨h.toFrame.trans h'.toFrame, fun c hc => h'.serial c (h.serial c hc)⟩

theorem Sent.start (hfresh : ∀ c, s.serial c ≤ s.currentSerial) :
    Sent P due buf s.nextSerial s.nextSerial :=
  ⟨Frame.refl P _, fun c hc => absurd hc (Nat.ne_of_lt (Nat.lt_succ_of_le (hfresh c))),
    fun _ _ => rfl, fun c => (hfresh c).trans (Nat.le_succ _)⟩

theorem Sent.mark (h : Sent P due buf s u) (hdue : due c) (hnew : u.serial c ≠ u.currentSerial)
    (hframe : Frame P u v) (hserial : v.serial = update u.serial c u.currentSerial)
    (hothers : ∀ d, d ≠ c → v.lines d = u.lines d)
    (hdest : v.lines c = u.lines c ++ [buf c] ∨
      v.lines c = u.lines c ∧ (v.client c).isDefunct = true) :
    Sent P due buf s v ∧ Later P u v ∧ v.serial c = v.currentSerial := by
  have hc : v.serial c = v.currentSerial := by
    rw [hserial, update_self, hframe.currentSerial]
  have hd : ∀ d, d ≠ c → (v.serial d = v.currentSerial ↔ u.serial d = u.currentSerial) := by
    intro d hd
    rw [hserial, update_of_ne hd, hframe.currentSerial]
  refine ⟨⟨h.toFrame.trans hframe, fun d hsd => ?_, fun d hsd => ?_, fun d => ?_⟩,
    ⟨hframe, fun d hsd => ?_⟩, hc⟩
  · by_cases heq : d = c
    · subst heq
      rw [h.others d hnew] at hdest
      exact ⟨hdue, hdest⟩
    · obtain ⟨hdue', hline⟩ := h.served d ((hd d heq).mp hsd)
      rw [hothers d heq]
      exact ⟨hdue', hline.imp_right fun hdead => ⟨hdead.1, hframe.defunct hdead.2⟩⟩
  · by_cases heq : d = c
    · exact absurd (heq ▸ hc) hsd
    · rw [hothers d heq]
      exact h.others d fun hu => hsd ((hd d heq).mpr hu)
  · by_cases heq : d = c
    · rw [heq, hc]
    · rw [hserial, update_of_ne heq, hframe.currentSerial]
      exact h.bounded d
  · by_cases heq : d = c
    · rw [heq, hc]
    · exact (hd d heq).mpr hsd

/-- What a call has done at its end, to a connection: the line was put on its queue once
if it was due, unless the connection has died, and otherwise nothing. -/
def Served (due : Prop) (buf : CStr) (s t : FanOut) (c : Cid) : Prop :=
  (due → (t.client c).isDefunct = false → t.lines c = s.lines c ++ [buf]) ∧
    (¬due → t.lines c = s.lines c) ∧
    (t.lines c = s.lines c ∨ t.lines c = s.lines c ++ [buf])

theorem Sent.finish (h : Sent P due buf s t)
    (hall : due c → (t.client c).isDefunct = false → t.serial c = t.currentSerial) :
    Served (due c) (buf c) s t c := by
  by_cases hserved : t.serial c = t.currentSerial
  · obtain ⟨hdue, hline⟩ := h.served c hserved
    refine ⟨fun _ hlive => ?_, fun hnot => absurd hdue hnot, ?_⟩
    · rcases hline with hline | ⟨-, hdead⟩
      · exact hline
      · rw [hlive] at hdead
        cases hdead
    · rcases hline with hline | ⟨hline, -⟩
      · exact Or.inr hline
      · exact Or.inl hline
  · refine ⟨fun hdue hlive => absurd (hall hdue hlive) hserved, fun _ => h.others c hserved,
      Or.inl (h.others c hserved)⟩

/-! ### Lines to a channel -/

/-- The connection over which a client is reached. -/
def destination (s : FanOut) (target : Cid) : Cid :=
  if (s.client target).myClient then target else (s.client target).from

/-- A member is neither dead or leaving nor deaf, and not reached over `one`. -/
def Hears (s : FanOut) (one : Option Cid) (target : Cid) : Prop :=
  (s.client target).isDefunct = false ∧ .deaf ∉ (s.client target).umodes ∧
    one ≠ some (s.client target).from

/-- The connections to which a line to a channel is due: local members that hear it, and
links with a member behind them that hears it. -/
def ButoneDue (s : FanOut) (one : Option Cid) (ch : Nat) (c : Cid) : Prop :=
  ∃ m ∈ s.base.members ch, ∃ x, s.base.member m = some x ∧ s.Hears one x.client ∧
    s.destination x.client = c

/-- The line for a connection: by its kind, and for a link by its capabilities. -/
def bufFor (s : FanOut) (lines : ChannelLines) (c : Cid) : CStr :=
  if (s.client c).myClient then lines.localBuf
  else if s.caps c &&& CAP_TS6 ≠ 0 then lines.uidBuf else lines.remoteBuf

/-- A client that is connected here is its own direction, and the others are behind a
server that is connected here. -/
def Routed (s : FanOut) (c : Cid) : Prop :=
  if (s.client c).myConnect then (s.client c).from = c
  else (s.client (s.client c).from).myConnect = true ∧
    (s.client (s.client c).from).isServer = true

/-- The turn of a member has come, and its connection has been served. -/
def Reached (s : FanOut) (one : Option Cid) (m : Nat) (u : FanOut) : Prop :=
  ∀ x, s.base.member m = some x → u.Hears one x.client →
    u.serial (s.destination x.client) = u.currentSerial

variable {one : Option Cid} {source : Cid} {lines : ChannelLines}

theorem Frame.hears (h : Frame P s t) (hears : t.Hears one c) : s.Hears one c := by
  obtain ⟨hlive, hdeaf, hone⟩ := hears
  rw [h.umodes] at hdeaf
  rw [h.from] at hone
  refine ⟨?_, hdeaf, hone⟩
  by_contra hdefunct
  rw [h.defunct (Bool.eq_true_of_not_eq_false hdefunct)] at hlive
  cases hlive

theorem Later.reached (h : Later P t u) {m : Nat} (hreached : Reached s one m t) :
    Reached s one m u :=
  fun x hx hears => h.serial _ (hreached x hx (h.hears hears))

theorem Routed.destination (h : Routed s c) : (s.client (s.destination c)).myConnect = true ∧
    ((s.client c).myClient = false → (s.client (s.client c).from).isClient = false ∧
      s.destination c = (s.client c).from) := by
  unfold Routed at h
  unfold FanOut.destination
  cases hclient : (s.client c).myClient with
  | true =>
    rw [Client.myClient, Bool.and_eq_true] at hclient
    exact ⟨hclient.1, fun hno => by cases hno⟩
  | false =>
    rw [if_neg Bool.false_ne_true]
    cases hconnect : (s.client c).myConnect with
    | true =>
      rw [if_pos hconnect] at h
      rw [Client.myClient, hconnect, Bool.true_and] at hclient
      rw [h]
      exact ⟨hconnect, fun _ => ⟨hclient, rfl⟩⟩
    | false =>
      rw [if_neg (by rw [hconnect]; exact Bool.false_ne_true)] at h
      refine ⟨h.1, fun _ => ⟨?_, rfl⟩⟩
      have hserver := h.2
      rw [Client.isServer, beq_iff_eq] at hserver
      rw [Client.isClient, hserver]
      rfl

theorem Sent.markPuts (h : Sent P due buf s u) (hdue : due c) (hnew : u.serial c ≠ u.currentSerial)
    (hputs : Puts P c [buf c] u t) :
    Sent P due buf s (t.mark c) ∧ Later P u (t.mark c) ∧
      (t.mark c).serial c = (t.mark c).currentSerial := by
  have hframe : Frame P u (t.mark c) :=
    ⟨hputs.base, hputs.client, hputs.currentSerial, hputs.caps, hputs.operList⟩
  have hserial : (t.mark c).serial = update u.serial c u.currentSerial := by
    rw [FanOut.mark, hputs.serial, hputs.currentSerial]
  exact h.mark hdue hnew hframe hserial hputs.others hputs.dest

variable (env) in
theorem Sent.butoneLocal {ch d : Nat} (h : Sent (fun c => (s.client c).myConnect = true)
      (s.ButoneDue one ch) (s.bufFor lines) s u)
    (hopers : ∀ oper ∈ u.operList, (s.client (u.client oper).from).myConnect = true)
    (hlocal : (s.client d).myConnect = true) (hmine : (s.client d).myClient = true)
    (hdue : s.ButoneDue one ch d) :
    ∃ v, (if u.serial d ≠ u.currentSerial then
          some ((u.sendMessage env d (.line lines.localBuf)).mark d) else some u) = some v ∧
      Sent (fun c => (s.client c).myConnect = true) (s.ButoneDue one ch) (s.bufFor lines) s v ∧
      Later (fun c => (s.client c).myConnect = true) u v ∧ v.serial d = v.currentSerial := by
  by_cases hnew : u.serial d ≠ u.currentSerial
  · have hbuf : s.bufFor lines d = lines.localBuf := if_pos hmine
    have hputs : Puts (fun c => (s.client c).myConnect = true) d [s.bufFor lines d] u
        (u.sendMessage env d (.line lines.localBuf)) := by
      rw [hbuf]
      exact sendMessage_puts env (.line lines.localBuf) hlocal hopers
    exact ⟨_, if_pos hnew, h.markPuts hdue hnew hputs⟩
  · exact ⟨u, if_neg hnew, h, Later.refl _ u, not_not.mp hnew⟩

variable (env) in
theorem Sent.butoneRemote {ch d : Nat} (h : Sent (fun c => (s.client c).myConnect = true)
      (s.ButoneDue one ch) (s.bufFor lines) s u)
    (hopers : ∀ oper ∈ u.operList, (s.client (u.client oper).from).myConnect = true)
    (hlocal : (s.client d).myConnect = true) (hserver : (s.client d).isClient = false)
    (hdue : s.ButoneDue one ch d) (source : Cid) :
    ∃ v, (if u.serial d ≠ u.currentSerial then
          (u.sendMessageRemote env d source
            (.line (if u.caps d &&& CAP_TS6 ≠ 0 then lines.uidBuf else lines.remoteBuf))).map
              fun s => s.mark d
        else some u) = some v ∧
      Sent (fun c => (s.client c).myConnect = true) (s.ButoneDue one ch) (s.bufFor lines) s v ∧
      Later (fun c => (s.client c).myConnect = true) u v ∧ v.serial d = v.currentSerial := by
  by_cases hnew : u.serial d ≠ u.currentSerial
  · have hconnect : (u.client d).myConnect = true := by
      rw [h.myConnect]
      exact hlocal
    have hnoclient : (u.client d).isClient = false := by
      rw [Client.isClient, h.status]
      exact hserver
    have hbuf : (if u.caps d &&& CAP_TS6 ≠ 0 then lines.uidBuf else lines.remoteBuf) =
        s.bufFor lines d := by
      have hnot : (s.client d).myClient = false := by
        rw [Client.myClient, hserver, Bool.and_false]
      rw [bufFor, hnot, if_neg Bool.false_ne_true, h.caps]
    obtain ⟨t, hsend, hputs⟩ := sendMessageRemote_puts env (.line (s.bufFor lines d))
      (P := fun c => (s.client c).myConnect = true) hlocal hopers hconnect hnoclient source
    refine ⟨t.mark d, ?_, h.markPuts hdue hnew hputs⟩
    rw [if_pos hnew, hbuf, hsend, Option.map_some]
  · exact ⟨u, if_neg hnew, h, Later.refl _ u, not_not.mp hnew⟩

theorem Sent.butoneMember {ch m : Nat} (h : Sent (fun c => (s.client c).myConnect = true)
      (s.ButoneDue one ch) (s.bufFor lines) s u)
    (hrouted : ∀ m x, s.base.member m = some x → Routed s x.client)
    (hopers : ∀ oper ∈ s.operList, (s.client (s.client oper).from).myConnect = true)
    (hm : m ∈ s.base.members ch) :
    ∃ v, FanOut.butoneMember env one source lines u m = some v ∧
      Sent (fun c => (s.client c).myConnect = true) (s.ButoneDue one ch) (s.bufFor lines) s v ∧
      Later (fun c => (s.client c).myConnect = true) u v ∧ Reached s one m v := by
  have hmember : u.base.member = s.base.member := by rw [h.base]
  have hopers' : ∀ oper ∈ u.operList, (s.client (u.client oper).from).myConnect = true := by
    intro oper hoper
    rw [h.operList] at hoper
    rw [h.from]
    exact hopers oper hoper
  unfold FanOut.butoneMember
  rw [hmember]
  cases hx : s.base.member m with
  | none =>
    refine ⟨u, rfl, h, Later.refl _ u, fun x hx' => ?_⟩
    rw [hx] at hx'
    cases hx'
  | some x =>
    obtain ⟨hlocal, hlink⟩ := (hrouted m x hx).destination
    have hclient : (u.client x.client).myClient = (s.client x.client).myClient := by
      rw [Client.myClient, Client.myClient, h.myConnect, Client.isClient, Client.isClient,
        h.status]
    have hreached : ∀ v : FanOut, v.serial (s.destination x.client) = v.currentSerial →
        Reached s one m v := by
      intro v hv y hy _
      rw [hx] at hy
      obtain rfl := Option.some.inj hy
      exact hv
    dsimp only
    by_cases hskip : (u.client x.client).isDefunct = true ∨ .deaf ∈ (u.client x.client).umodes ∨
        one = some (u.client x.client).from
    · refine ⟨u, if_pos hskip, h, Later.refl _ u, ?_⟩
      rintro y hy ⟨hlive, hdeaf, hone⟩
      rw [hx] at hy
      obtain rfl := Option.some.inj hy
      rcases hskip with hskip | hskip | hskip
      · rw [hlive] at hskip
        cases hskip
      · exact absurd hskip hdeaf
      · exact absurd hskip hone
    rw [if_neg hskip]
    have hears : u.Hears one x.client := by
      rw [not_or, not_or] at hskip
      exact ⟨Bool.eq_false_iff.mpr hskip.1, hskip.2⟩
    have hdue : s.ButoneDue one ch (s.destination x.client) :=
      ⟨m, hm, x, hx, h.hears hears, rfl⟩
    cases hmine : (s.client x.client).myClient with
    | true =>
      have hdest : s.destination x.client = x.client := if_pos hmine
      rw [hdest] at hlocal hdue hreached
      rw [hclient, hmine, if_pos rfl]
      obtain ⟨v, hv, hsent, hlater, hserial⟩ := h.butoneLocal env hopers' hlocal hmine hdue
      exact ⟨v, hv, hsent, hlater, hreached v hserial⟩
    | false =>
      obtain ⟨hserver, hdest⟩ := hlink hmine
      rw [hdest] at hlocal hdue hreached
      rw [hclient, hmine, if_neg Bool.false_ne_true, h.from]
      obtain ⟨v, hv, hsent, hlater, hserial⟩ := h.butoneRemote env hopers' hlocal hserver hdue
        source
      exact ⟨v, hv, hsent, hlater, hreached v hserial⟩

theorem sendtoChannelButone_served (env : SendEnv) (hfresh : ∀ c, s.serial c ≤ s.currentSerial)
    (hrouted : ∀ m x, s.base.member m = some x → Routed s x.client)
    (hopers : ∀ oper ∈ s.operList, (s.client (s.client oper).from).myConnect = true)
    (one : Option Cid) (source : Cid) (ch : Nat) (command text : CStr) :
    ∃ t, s.sendtoChannelButone env one source ch command text = some t ∧
      Frame (fun c => (s.client c).myConnect = true) s.nextSerial t ∧
      (∀ c, t.serial c ≤ t.currentSerial) ∧
      ∀ c, Served (s.ButoneDue one ch c)
        (s.bufFor (channelLines (s.client source)
          (((s.base.chans ch).map ChannelData.chname).getD []) command text) c) s t c := by
  set lines := channelLines (s.client source)
    (((s.base.chans ch).map ChannelData.chname).getD []) command text with hlines
  obtain ⟨t, hloop, hsent, -, hreached⟩ := Loops.foldlM_reaches
    (I := Sent (fun c => (s.client c).myConnect = true) (s.nextSerial.ButoneDue one ch)
      (s.nextSerial.bufFor lines) s.nextSerial)
    (R := fun m u => Reached s.nextSerial one m u) (l := s.base.members ch)
    (f := FanOut.butoneMember env one source lines) (Later.refl _)
    (fun _ _ _ => Later.trans) (fun _ _ _ hlater hreached => hlater.reached hreached)
    (fun m hm u hu => hu.butoneMember (s := s.nextSerial) hrouted hopers hm)
    (Sent.start hfresh)
  refine ⟨t, hloop, hsent.toFrame, hsent.bounded, fun c => hsent.finish ?_⟩
  rintro ⟨m, hm, x, hx, hears, rfl⟩ hlive
  apply hreached m hm x hx
  obtain ⟨hbefore, hdeaf, hone⟩ := hears
  have hrouted := hrouted m x hx
  refine ⟨?_, ?_, ?_⟩
  · by_cases hconnect : (s.client x.client).myConnect = true
    · have hdest : s.destination x.client = x.client := by
        unfold Routed at hrouted
        rw [if_pos hconnect] at hrouted
        unfold FanOut.destination
        rw [hrouted, ite_self]
      have hdest : s.nextSerial.destination x.client = x.client := hdest
      rwa [hdest] at hlive
    · rcases hsent.client x.client with hsame | ⟨hlocal, -⟩
      · rw [hsame]
        exact hbefore
      · exact absurd hlocal hconnect
  · rw [hsent.umodes]
    exact hdeaf
  · rw [hsent.from]
    exact hone

/-! ### Lines to those who share a channel -/

/-- The client is a local member of a channel that the user is on. -/
def Shares (s : FanOut) (user c : Cid) : Prop :=
  ∃ m ∈ s.base.channel user, ∃ x, s.base.member m = some x ∧
    ∃ n ∈ s.base.locmembers x.chptr, ∃ y, s.base.member n = some y ∧ y.client = c

/-- The connections to which a line to those who share a channel with a user is due. -/
def CommonDue (s : FanOut) (user : Cid) (touser : Bool) (c : Cid) : Prop :=
  if c = user then touser = true ∧ (s.client user).myConnect = true ∧ (s.client user).isDead = false
  else (s.client c).isDefunct = false ∧ s.Shares user c

/-- The turn of a local member has come, and it has been served. -/
def Passed (s : FanOut) (user : Cid) (m : Nat) (u : FanOut) : Prop :=
  ∀ x, s.base.member m = some x → x.client ≠ user → (u.client x.client).isDefunct = false →
    u.serial x.client = u.currentSerial

variable {user : Cid} {text : CStr}

theorem Later.passed (h : Later P t u) {m : Nat} (hpassed : Passed s user m t) :
    Passed s user m u := by
  intro x hx hne hlive
  apply h.serial
  apply hpassed x hx hne
  by_contra hdefunct
  rw [h.defunct (Bool.eq_true_of_not_eq_false hdefunct)] at hlive
  cases hlive

theorem Sent.commonMember {m n : Nat} {x : Member}
    (h : Sent (fun _ => True) (fun c => c ≠ user ∧ s.CommonDue user false c) (fun _ => text) s u)
    (hm : m ∈ s.base.channel user) (hx : s.base.member m = some x)
    (hn : n ∈ s.base.locmembers x.chptr) :
    Sent (fun _ => True) (fun c => c ≠ user ∧ s.CommonDue user false c) (fun _ => text) s
        (FanOut.commonMember env user text u n) ∧
      Later (fun _ => True) u (FanOut.commonMember env user text u n) ∧
      Passed s user n (FanOut.commonMember env user text u n) := by
  have hmember : u.base.member = s.base.member := by rw [h.base]
  unfold FanOut.commonMember
  rw [hmember]
  cases hy : s.base.member n with
  | none =>
    refine ⟨h, Later.refl _ u, fun y hy' => ?_⟩
    rw [hy] at hy'
    cases hy'
  | some y =>
    have hpassed : ∀ v : FanOut, (y.client ≠ user → (v.client y.client).isDefunct = false →
        v.serial y.client = v.currentSerial) → Passed s user n v := by
      intro v hv z hz
      rw [hy] at hz
      obtain rfl := Option.some.inj hz
      exact hv
    dsimp only
    split
    · rename_i hskip
      refine ⟨h, Later.refl _ u, hpassed u fun hne hlive => ?_⟩
      rcases hskip with hskip | hskip | hskip
      · exact absurd hskip hne
      · rw [hlive] at hskip
        cases hskip
      · exact hskip
    · rename_i hskip
      rw [not_or, not_or] at hskip
      obtain ⟨hne, hlive, hnew⟩ := hskip
      have hdue : y.client ≠ user ∧ s.CommonDue user false y.client := by
        refine ⟨hne, ?_⟩
        unfold CommonDue
        rw [if_neg hne]
        refine ⟨?_, m, hm, x, hx, n, hn, y, hy, rfl⟩
        by_contra hdefunct
        exact hlive (h.defunct (Bool.eq_true_of_not_eq_false hdefunct))
      have hputs : Puts (fun _ => True) y.client [text] (u.mark y.client)
          ((u.mark y.client).sendMessage env y.client (.line text)) :=
        sendMessage_puts env (.line text) trivial fun _ _ => trivial
      have hmark := h.mark hdue hnew (v := (u.mark y.client).sendMessage env y.client
          (.line text))
        ⟨hputs.base, hputs.client, hputs.currentSerial, hputs.caps, hputs.operList⟩
        hputs.serial hputs.others hputs.dest
      exact ⟨hmark.1, hmark.2.1, hpassed _ fun _ _ => hmark.2.2⟩

theorem Sent.commonChannel {m : Nat}
    (h : Sent (fun _ => True) (fun c => c ≠ user ∧ s.CommonDue user false c) (fun _ => text) s u)
    (hm : m ∈ s.base.channel user) :
    Sent (fun _ => True) (fun c => c ≠ user ∧ s.CommonDue user false c) (fun _ => text) s
        (FanOut.commonChannel env user text u m) ∧
      Later (fun _ => True) u (FanOut.commonChannel env user text u m) ∧
      ∀ x, s.base.member m = some x → ∀ n ∈ s.base.locmembers x.chptr,
        Passed s user n (FanOut.commonChannel env user text u m) := by
  have hmember : u.base.member = s.base.member := by rw [h.base]
  have hlocmembers : u.base.locmembers = s.base.locmembers := by rw [h.base]
  unfold FanOut.commonChannel
  rw [hmember]
  cases hx : s.base.member m with
  | none =>
    refine ⟨h, Later.refl _ u, fun x hx' => ?_⟩
    cases hx'
  | some x =>
    dsimp only
    rw [hlocmembers]
    obtain ⟨hsent, hlater, hpassed⟩ := Loops.foldl_reaches
      (I := Sent (fun _ => True) (fun c => c ≠ user ∧ s.CommonDue user false c) (fun _ => text) s)
      (R := fun n u => Passed s user n u) (f := FanOut.commonMember env user text)
      (l := s.base.locmembers x.chptr) (Later.refl _) (fun _ _ _ => Later.trans)
      (fun _ _ _ hlater hpassed => hlater.passed hpassed)
      (fun n hn v hv => hv.commonMember hm hx hn) h
    refine ⟨hsent, hlater, fun y hy => ?_⟩
    obtain rfl := Option.some.inj hy
    exact hpassed

theorem sendtoCommonChannelsLocal_served (env : SendEnv)
    (hfresh : ∀ c, s.serial c ≤ s.currentSerial) (user : Cid) (touser : Bool) (text : CStr) :
    Frame (fun _ => True) s.nextSerial (s.sendtoCommonChannelsLocal env user touser text) ∧
      (∀ c, (s.sendtoCommonChannelsLocal env user touser text).serial c ≤
        (s.sendtoCommonChannelsLocal env user touser text).currentSerial) ∧
      ∀ c, Served (s.CommonDue user touser c) (sendFormat text) s
        (s.sendtoCommonChannelsLocal env user touser text) c := by
  unfold FanOut.sendtoCommonChannelsLocal
  dsimp only
  set buf := sendFormat text
  obtain ⟨hsent, -, hpassed⟩ := Loops.foldl_reaches
    (I := Sent (fun _ => True) (fun c => c ≠ user ∧ s.nextSerial.CommonDue user false c)
      (fun _ => buf) s.nextSerial)
    (R := fun m u => ∀ x, s.base.member m = some x → ∀ n ∈ s.base.locmembers x.chptr,
      Passed s.nextSerial user n u) (f := FanOut.commonChannel env user buf)
    (l := s.base.channel user) (Later.refl (fun _ => True)) (fun _ _ _ => Later.trans)
    (fun _ _ _ hlater hall x hx n hn => hlater.passed (hall x hx n hn))
    (fun m hm v hv => hv.commonChannel (s := s.nextSerial) hm) (Sent.start hfresh)
  set u := (s.base.channel user).foldl (FanOut.commonChannel env user buf) s.nextSerial with hu
  have hsame : ∀ c, c ≠ user → (s.CommonDue user touser c ↔
      c ≠ user ∧ s.nextSerial.CommonDue user false c) := by
    intro c hne
    unfold CommonDue
    rw [if_neg hne, if_neg hne]
    exact (and_iff_right hne).symm
  have hloop : ∀ c, c ≠ user → Served (s.CommonDue user touser c) buf s u c := by
    intro c hne
    rw [hsame c hne]
    apply hsent.finish
    rintro ⟨-, hdue⟩ hlive
    unfold CommonDue at hdue
    rw [if_neg hne] at hdue
    obtain ⟨-, m, hm, x, hx, n, hn, y, hy, rfl⟩ := hdue
    exact hpassed m hm x hx n hn y hy hne hlive
  have hnew : u.serial user ≠ u.currentSerial := fun h => (hsent.served user h).1.1 rfl
  have huser : u.lines user = s.lines user := hsent.others user hnew
  have hdead : (s.client user).isDead = true → (u.client user).isDead = true := by
    intro hdead
    rcases hsent.client user with heq | ⟨-, heq⟩
    · rw [heq]
      exact hdead
    · rw [heq]
      simp [Client.isDead, Client.setFlag]
  have hconnect : (u.client user).myConnect = (s.client user).myConnect := hsent.myConnect user
  split
  · rename_i hsend
    obtain ⟨htouser, hlocal, halive, -⟩ := hsend
    have hputs : Puts (fun _ => True) user [buf] u (u.sendMessage env user (.line buf)) :=
      sendMessage_puts env (.line buf) trivial fun _ _ => trivial
    refine ⟨hsent.toFrame.trans hputs.toFrame, fun c => ?_, fun c => ?_⟩
    · rw [hputs.serial, hputs.currentSerial]
      exact hsent.bounded c
    · by_cases hne : c = user
      · subst hne
        have hdue : s.CommonDue c touser c := by
          unfold CommonDue
          rw [if_pos rfl, ← hconnect]
          refine ⟨htouser, hlocal, Bool.eq_false_iff.mpr fun hs => ?_⟩
          rw [hdead hs] at halive
          cases halive
        have hdest := hputs.dest
        rw [huser] at hdest
        refine ⟨fun _ hlive => ?_, fun hnot => absurd hdue hnot, ?_⟩
        · rcases hdest with hdest | ⟨-, hdefunct⟩
          · exact hdest
          · rw [hlive] at hdefunct
            cases hdefunct
        · rcases hdest with hdest | ⟨hdest, -⟩
          · exact Or.inr hdest
          · exact Or.inl hdest
      · obtain ⟨hyes, hno, hmost⟩ := hloop c hne
        unfold Served
        rw [hputs.others c hne]
        refine ⟨fun hdue hlive => hyes hdue ?_, hno, hmost⟩
        by_contra hdefunct
        rw [hputs.defunct (Bool.eq_true_of_not_eq_false hdefunct)] at hlive
        cases hlive
  · rename_i hsend
    refine ⟨hsent.toFrame, hsent.bounded, fun c => ?_⟩
    by_cases hne : c = user
    · subst hne
      refine ⟨fun hdue hlive => ?_, fun _ => huser, Or.inl huser⟩
      unfold CommonDue at hdue
      rw [if_pos rfl] at hdue
      exfalso
      apply hsend
      refine ⟨hdue.1, hconnect.trans hdue.2.1, ?_, hnew⟩
      unfold Client.isDefunct at hlive
      simp only [Bool.or_eq_false_iff] at hlive
      rw [hlive.1.1]
      rfl
    · exact hloop c hne

end FanOut

end Ircd
