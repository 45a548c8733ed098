import Ircd.Dbuf

/-!
The send queue of a local connection: `send_message`, `send_queued_write` and
`dead_link_on_write`, with the answers of `send` as an input.

`send_queue_exact`: whatever parts of the blocks the socket takes, it gets the lines in order,
and only a dead link loses some.
-/

namespace Ircd

open List

/-- What `send` or `SSL_write` answers for a block: it takes one byte at least, or there is an
error that `ignoreErrno` knows, another one, or `SSL_ERROR_WANT_READ`. -/
inductive SendResult where
  | wrote (more : Nat)
  | blocked
  | failed
  | wantRead

/-- What the functions use of a client, with `get_sendq` of it. `closing` is for the other flags
of `IsDefunct`. The last three are what it should get, what was queued, and what was written. -/
structure SendLink where
  sendq : Nat
  server : Bool
  bufSendq : DbufQueue := .empty
  dead : Bool := false
  closing : Bool := false
  sendqBlocked : Bool := false
  lines : List CStr := []
  accepted : List CStr := []
  wire : CStr := []

/-- What happens to a link. The first is what `sendto_one` does, and `dead` a link that dies
on reading. -/
inductive SendOp where
  | line (line : CStr) (results : List SendResult)
  | write (results : List SendResult)
  | unblocked
  | dead
  | closing

namespace SendLink

/-- `dead_link_on_write`, about the send queue. -/
def deadLinkOnWrite (l : SendLink) : Option SendLink :=
  if l.dead || l.closing then some l
  else (dbufDelete l.bufSendq l.bufSendq.totalSize).map fun q => { l with bufSendq := q, dead := true }

/-- The loop of `send_queued_write`; `none` is a queue without a block. Where no answer is given
`send` would block. -/
def writeLoop (l : SendLink) : List SendResult → Option SendLink
  | [] | .blocked :: _ => some { l with sendqBlocked := true }
  | .wantRead :: _ => some l
  | .failed :: _ => l.deadLinkOnWrite
  | .wrote more :: results =>
    match l.bufSendq.blocks with
    | [] => none
    | first :: _ =>
      let retlen := min (more + 1) first.size
      (dbufDelete l.bufSendq retlen).bind fun q =>
        let l := { l with bufSendq := q, wire := l.wire ++ first.data.take retlen }
        if q.totalSize = 0 then some l else l.writeLoop results

/-- `send_queued_write`. -/
def sendQueuedWrite (l : SendLink) (results : List SendResult) : Option SendLink :=
  if l.dead || l.sendqBlocked then some l
  else if l.bufSendq.totalSize = 0 then some l
  else l.writeLoop results

/-- The length from which on `send_message` writes at once. -/
def high (l : SendLink) : Nat := if l.server then 1024 else 4096

/-- `send_message`. -/
def sendMessage (l : SendLink) (buf : CStr) (results : List SendResult) : Option SendLink :=
  let l := { l with lines := l.lines ++ [buf] }
  if l.sendq < l.bufSendq.totalSize + buf.length then l.deadLinkOnWrite
  else
    let l := { l with bufSendq := dbufPut l.bufSendq buf, accepted := l.accepted ++ [buf] }
    if l.high < l.bufSendq.totalSize then l.sendQueuedWrite results else some l

def step (l : SendLink) : SendOp → Option SendLink
  | .line line results =>
    if l.dead then some l else l.sendMessage (sendFormat line ++ ['\r', '\n']) results
  | .write results => l.sendQueuedWrite results
  | .unblocked => some { l with sendqBlocked := false }
  | .dead => l.deadLinkOnWrite
  | .closing => some { l with closing := true }

/-- The queue is within its limit, and holds what is left to write. Before the link is closed only
a dead one has not accepted a line. -/
structure Inv (l : SendLink) : Prop where
  sound : l.bufSendq.Sound
  fits : l.bufSendq.totalSize ≤ l.sendq
  sent : l.wire <+: l.accepted.flatten
  order : l.dead = false → l.wire ++ l.bufSendq.bytes = l.accepted.flatten
  whole : l.closing = false → l.accepted <+: l.lines ∧ (l.dead = false → l.accepted = l.lines)

variable {l : SendLink}

theorem totalSize_eq {q : DbufQueue} (h : q.Sound) : q.totalSize = q.bytes.length :=
  h.total.trans (sum_sizes q.blocks)

theorem delete_spec {q : DbufQueue} (h : q.Sound) {count : Nat} (hle : count ≤ q.bytes.length) :
    ∃ q', dbufDelete q count = some q' ∧ q'.bytes = q.bytes.drop count ∧ q'.Sound ∧
      q'.totalSize ≤ q.totalSize := by
  obtain ⟨q', hdelete, hbytes, -⟩ := dbufDelete_spec (totalSize_eq h) hle
  have hsound := (h.call (.delete count)).2 q' hdelete
  refine ⟨q', hdelete, hbytes, hsound, ?_⟩
  rw [totalSize_eq hsound, totalSize_eq h, hbytes, length_drop]
  exact Nat.sub_le _ _

theorem Inv.deadLink (h : l.Inv) (more : List CStr) : ∃ l',
    ({ l with lines := l.lines ++ more } : SendLink).deadLinkOnWrite = some l' ∧ l'.Inv := by
  have hlines : l.closing = false → l.accepted <+: l.lines ++ more := fun hopen =>
    (h.whole hopen).1.trans (prefix_append _ _)
  unfold deadLinkOnWrite
  split
  · rename_i hdefunct
    refine ⟨_, rfl, h.sound, h.fits, h.sent, h.order, fun hopen => ⟨hlines hopen, fun halive => ?_⟩⟩
    simp_all
  · obtain ⟨q, hdelete, -, hsound, hle⟩ := delete_spec h.sound (totalSize_eq h.sound).le
    refine ⟨{ l with bufSendq := q, dead := true, lines := l.lines ++ more }, ?_, hsound,
      hle.trans h.fits, h.sent, nofun, fun hopen => ⟨hlines hopen, nofun⟩⟩
    dsimp only
    rw [hdelete]
    rfl

theorem Inv.deadLinkOnWrite (h : l.Inv) : ∃ l', l.deadLinkOnWrite = some l' ∧ l'.Inv := by
  simpa using h.deadLink []

theorem Inv.writeLoop (h : l.Inv) (halive : l.dead = false) (hne : l.bufSendq.totalSize ≠ 0)
    (results : List SendResult) : ∃ l', l.writeLoop results = some l' ∧ l'.Inv := by
  induction results generalizing l with
  | nil => exact ⟨_, rfl, h.sound, h.fits, h.sent, h.order, h.whole⟩
  | cons result results ih =>
    cases result with
    | blocked => exact ⟨_, rfl, h.sound, h.fits, h.sent, h.order, h.whole⟩
    | failed => exact h.deadLinkOnWrite
    | wantRead => exact ⟨l, rfl, h⟩
    | wrote more =>
      rw [SendLink.writeLoop]
      cases hblocks : l.bufSendq.blocks with
      | nil =>
        refine absurd ?_ hne
        rw [h.sound.total, hblocks]
        rfl
      | cons first rest =>
        have hfirst : first.data <+: l.bufSendq.bytes :=
          DbufQueue.first_prefix (by rw [hblocks]; rfl)
        have hle : min (more + 1) first.size ≤ first.data.length := Nat.min_le_right _ _
        obtain ⟨q, hdelete, hbytes, hsound, hsize⟩ := delete_spec h.sound (hle.trans hfirst.length_le)
        have hwire : l.wire ++ first.data.take (min (more + 1) first.size) ++ q.bytes =
            l.accepted.flatten := by
          obtain ⟨behind, hbehind⟩ := hfirst
          rw [hbytes, ← h.order halive, ← hbehind, drop_append_of_le_length hle, append_assoc,
            ← append_assoc (take _ _), take_append_drop]
        have hnext : Inv { l with
            bufSendq := q, wire := l.wire ++ first.data.take (min (more + 1) first.size) } :=
          ⟨hsound, hsize.trans h.fits, ⟨q.bytes, hwire⟩, fun _ => hwire, h.whole⟩
        dsimp only
        rw [hdelete, Option.bind_some]
        split
        · exact ⟨_, rfl, hnext⟩
        · rename_i hleft
          exact ih hnext halive hleft

theorem Inv.sendQueuedWrite (h : l.Inv) (results : List SendResult) :
    ∃ l', l.sendQueuedWrite results = some l' ∧ l'.Inv := by
  unfold SendLink.sendQueuedWrite
  split
  · exact ⟨l, rfl, h⟩
  · split
    · exact ⟨l, rfl, h⟩
    · rename_i hready hne
      exact h.writeLoop (by simp_all) hne results

theorem Inv.sendMessage (h : l.Inv) (halive : l.dead = false) {buf : CStr} (hbuf : buf ≠ [])
    (results : List SendResult) : ∃ l', l.sendMessage buf results = some l' ∧ l'.Inv := by
  unfold SendLink.sendMessage
  dsimp only
  split
  · exact h.deadLink [buf]
  · rename_i hroom
    have hsound := (h.sound.call (.put buf hbuf)).2 _ rfl
    have horder : l.wire ++ (dbufPut l.bufSendq buf).bytes = (l.accepted ++ [buf]).flatten := by
      rw [bytes_dbufPut, ← append_assoc, h.order halive, flatten_append, flatten_singleton]
    have hnext : Inv { l with
        lines := l.lines ++ [buf], bufSendq := dbufPut l.bufSendq buf
        accepted := l.accepted ++ [buf] } := by
      refine ⟨hsound, ?_, ⟨_, horder⟩, fun _ => horder, fun hopen => ?_⟩
      · rw [totalSize_eq hsound, bytes_dbufPut, length_append, ← totalSize_eq h.sound]
        exact Nat.le_of_not_lt hroom
      · rw [(h.whole hopen).2 halive]
        exact ⟨prefix_rfl, fun _ => rfl⟩
    split
    · exact hnext.sendQueuedWrite results
    · exact ⟨_, rfl, hnext⟩

theorem Inv.step (h : l.Inv) (op : SendOp) : ∃ l', l.step op = some l' ∧ l'.Inv := by
  cases op with
  | line line results =>
    cases hdead : l.dead with
    | true => exact ⟨l, if_pos hdead, h⟩
    | false =>
      rw [SendLink.step, if_neg (by simp [hdead])]
      exact h.sendMessage hdead (by simp) results
  | write results => exact h.sendQueuedWrite results
  | unblocked => exact ⟨_, rfl, h.sound, h.fits, h.sent, h.order, h.whole⟩
  | dead => exact h.deadLinkOnWrite
  | closing => exact ⟨_, rfl, h.sound, h.fits, h.sent, h.order, nofun⟩

end SendLink

/-- In every run no assertion fails and the queue stays within its limit. What was written are the
first bytes of the lines that were accepted, with no byte lost, doubled or moved; those in the
queue of a live link are the rest. No line in front of an accepted one was refused, unless the
link was closing. -/
theorem send_queue_exact (sendq : Nat) (server : Bool) (ops : List SendOp) :
    ∃ l, ops.foldlM SendLink.step { sendq, server } = some l ∧ l.Inv := by
  have hrun : ∀ l : SendLink, l.Inv → ∃ l', ops.foldlM SendLink.step l = some l' ∧ l'.Inv := by
    induction ops with
    | nil => exact fun l h => ⟨l, rfl, h⟩
    | cons op ops ih =>
      intro l h
      obtain ⟨l₁, hstep, h₁⟩ := h.step op
      obtain ⟨l', hrest, h'⟩ := ih l₁ h₁
      refine ⟨l', ?_, h'⟩
      rw [foldlM_cons, hstep]
      exact hrest
  refine hrun _ ⟨?_, Nat.zero_le _, prefix_rfl, fun _ => rfl, fun _ => ⟨prefix_rfl, fun _ => rfl⟩⟩
  exact DbufQueue.sound_of_counted rfl fun b hb => absurd hb not_mem_nil

end Ircd
