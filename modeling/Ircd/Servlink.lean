import Mathlib.Data.List.Basic
import Mathlib.Data.Nat.Bitwise

/-!
Replies on the control pipe of a servlink: `read_ctrl_packet` and the event loop
that calls it.

A reply is a command byte; where the table says so, a length of two bytes and
that many bytes of data follow. `read_ctrl_packet` keeps in a `SlinkRpl` what it
has read of the current reply.

- `Link.call`: one call, as a chain of the three reads.
- `replies_decoded`: when successive calls, and when the event loop, dispatch
  exactly the replies sent.
-/

namespace Ircd

open List

/-- A line of `slinkrpltab`: the reply, whether data follows it
(`SLINKRPL_FLAG_DATA`) and whether its handler ends the link. -/
structure SlinkRplDef where
  replyid : UInt8
  data : Bool
  exits : Bool
  deriving DecidableEq, Repr

/-- `slinkrpltab`; `slink_error` calls `exit_client`. -/
def slinkrpltab : List SlinkRplDef :=
  [{ replyid := 1, data := true, exits := true }, { replyid := 2, data := true, exits := false }]

def replydef (tab : List SlinkRplDef) (command : UInt8) : Option SlinkRplDef :=
  tab.find? fun d => d.replyid == command

/-- `struct SlinkRpl`. The buffer is the part of it that is filled; `none` is `NULL`. -/
structure SlinkRpl where
  command : UInt8 := 0
  datalen : Nat := 0
  gotdatalen : Nat := 0
  readdata : Nat := 0
  data : Option (List UInt8) := none
  deriving DecidableEq, Repr

/-- What a handler is called with. -/
structure HandlerCall where
  command : UInt8
  datalen : Nat
  data : Option (List UInt8)
  deriving DecidableEq, Repr

/-- A server linked through a servlink: the bytes waiting in the control pipe,
the reply being read, whether the pipe is watched for reading, whether the link
is dead, and the handler calls so far. -/
structure Link where
  pipe : List UInt8 := []
  reply : SlinkRpl := {}
  watched : Bool := true
  dead : Bool := false
  handled : List HandlerCall := []
  deriving DecidableEq, Repr

namespace Link

/-- `nodata`: wait for the pipe to become readable. -/
def nodata (l : Link) : Link := { l with watched := true }

/-- `dead_link_on_read`, and a failed assertion. -/
def die (l : Link) : Link := { l with dead := true }

/-- The first read: the command. An error is a `return`. -/
def readCommand (l : Link) : Except Link Link :=
  if l.reply.command = 0 then
    let l := { l with reply := { l.reply with gotdatalen := 0, readdata := 0, data := none } }
    match l.pipe with
    | [] => .error l.nodata
    | c :: pipe => .ok { l with pipe := pipe, reply := { l.reply with command := c } }
  else .ok l

/-- What the bytes of a length do to the reply. -/
def storeLength (reply : SlinkRpl) (bytes : List UInt8) : SlinkRpl :=
  let (reply, bytes) :=
    match reply.gotdatalen, bytes with
    | 0, b :: bytes => ({ reply with datalen := b.toNat <<< 8, gotdatalen := 1 }, bytes)
    | _, bytes => (reply, bytes)
  match reply.gotdatalen, bytes with
  | 1, b :: _ =>
    let datalen := reply.datalen ||| b.toNat
    { reply with
      datalen := datalen, gotdatalen := 2, data := if 0 < datalen then some [] else reply.data }
  | _, _ => reply

/-- The second read: the length, if the table says that data follows. -/
def readLength (tab : List SlinkRplDef) (l : Link) : Except Link Link :=
  match replydef tab l.reply.command with
  | none => .error l.die
  | some d =>
    if d.data = true ∧ l.reply.gotdatalen < 2 then
      let bytes := l.pipe.take (2 - l.reply.gotdatalen)
      if bytes = [] then .error l.nodata
      else
        let l := { l with pipe := l.pipe.drop bytes.length, reply := storeLength l.reply bytes }
        -- the source returns here without a new `comm_setselect`
        if l.reply.gotdatalen < 2 then .error l else .ok l
    else .ok l

/-- The third read: the data. A read into `NULL` fails. -/
def readData (l : Link) : Except Link Link :=
  if l.reply.readdata < l.reply.datalen then
    let bytes := l.pipe.take (l.reply.datalen - l.reply.readdata)
    if bytes = [] then .error l.nodata
    else
      match l.reply.data with
      | none => .error l.die
      | some data =>
        let l :=
          { l with
            pipe := l.pipe.drop bytes.length
            reply :=
              { l.reply with
                readdata := l.reply.readdata + bytes.length, data := some (data ++ bytes) } }
        -- and here
        if l.reply.readdata < l.reply.datalen then .error l else .ok l
  else .ok l

/-- The call of the handler, after which the next reply can be read. -/
def dispatch (tab : List SlinkRplDef) (l : Link) : Link :=
  let handled := l.handled ++ [⟨l.reply.command, l.reply.datalen, l.reply.data⟩]
  let exits := ((replydef tab l.reply.command).map SlinkRplDef.exits).getD false
  let l := { l with handled := handled, reply := { l.reply with command := 0 } }
  if exits then l.die else l.nodata

/-- `read_ctrl_packet`. -/
def call (tab : List SlinkRplDef) (l : Link) : Link :=
  if l.dead then l
  else
    match readCommand l >>= readLength tab >>= readData with
    | .error l => l
    | .ok l => dispatch tab l

def arrive (l : Link) (bytes : List UInt8) : Link := { l with pipe := l.pipe ++ bytes }

/-- `comm_select` at a pipe that has bytes: the handler is taken out before it is
called, so it runs again only if it asks for it. -/
def select (tab : List SlinkRplDef) (l : Link) : Link :=
  if l.watched && l.pipe ≠ [] then call tab { l with watched := false } else l

/-- The event loop runs until nothing is left to read; a byte at least goes in
each of its calls. -/
def drain (tab : List SlinkRplDef) : Nat → Link → Link
  | 0, l => l
  | n + 1, l => drain tab n (select tab l)

/-- The bytes come in chunks, and the event loop catches up after each. -/
def loop (tab : List SlinkRplDef) (l : Link) (chunks : List (List UInt8)) : Link :=
  chunks.foldl (fun l chunk => drain tab (l.arrive chunk).pipe.length (l.arrive chunk)) l

end Link

/-- What happens at a pipe when the calls are made at any time. -/
inductive PipeEvent
  | arrive (bytes : List UInt8)
  | call
  deriving DecidableEq, Repr

def Link.step (tab : List SlinkRplDef) (l : Link) : PipeEvent → Link
  | .arrive bytes => l.arrive bytes
  | .call => l.call tab

def arrivals : List PipeEvent → List UInt8
  | [] => []
  | .arrive bytes :: es => bytes ++ arrivals es
  | .call :: es => arrivals es

/-! ### Replies -/

/-- A reply, with its data where the command has any. -/
structure SlinkReply where
  command : UInt8
  data : List UInt8 := []
  deriving DecidableEq, Repr

def hasData (tab : List SlinkRplDef) (command : UInt8) : Bool :=
  ((replydef tab command).map SlinkRplDef.data).getD false

def SlinkReply.bytes (tab : List SlinkRplDef) (r : SlinkReply) : List UInt8 :=
  if hasData tab r.command then
    r.command :: UInt8.ofNat (r.data.length / 256) :: UInt8.ofNat (r.data.length % 256) :: r.data
  else [r.command]

def SlinkReply.handlerCall (r : SlinkReply) : HandlerCall :=
  ⟨r.command, r.data.length, if r.data = [] then none else some r.data⟩

/-- A reply a servlink may send: the table has it, and its data fits the length. -/
structure SlinkReply.WellFormed (tab : List SlinkRplDef) (r : SlinkReply) : Prop where
  nonzero : r.command ≠ 0
  known : (replydef tab r.command).isSome = true
  noData : hasData tab r.command = false → r.data = []
  short : r.data.length < 65536

/-- The replies of a servlink, which sends nothing after one that ends the link. -/
structure WellFormedReplies (tab : List SlinkRplDef) (rs : List SlinkReply) : Prop where
  each : ∀ r ∈ rs, r.WellFormed tab
  last : ∀ r ∈ rs.dropLast, ((replydef tab r.command).map SlinkRplDef.exits).getD false = false

/-- No reply without data is read while `datalen` still has the length of an
earlier reply. -/
def noStale (tab : List SlinkRplDef) : Nat → List SlinkReply → Bool
  | _, [] => true
  | datalen, r :: rs =>
    if hasData tab r.command then noStale tab r.data.length rs
    else datalen == 0 && noStale tab 0 rs

/-- A position inside the length or inside the data of a reply. -/
def torn (tab : List SlinkRplDef) : List SlinkReply → Nat → Bool
  | [], _ => false
  | r :: rs, p =>
    if p < (r.bytes tab).length then
      hasData tab r.command && (p == 2 || decide (3 < p))
    else torn tab rs (p - (r.bytes tab).length)

/-! ### The three reads -/

variable {tab : List SlinkRplDef} {r : SlinkReply} {rs : List SlinkReply} {l : Link} {last : Nat}

/-- The record after the first `offset` bytes of a reply; the command alone
leaves the old length in place. -/
def SlinkReply.record (r : SlinkReply) (last : Nat) : Nat → SlinkRpl
  | 0 => { datalen := last }
  | 1 => { command := r.command, datalen := last }
  | 2 => { command := r.command, datalen := (r.data.length / 256) <<< 8, gotdatalen := 1 }
  | k + 3 =>
    { command := r.command, datalen := r.data.length, gotdatalen := 2, readdata := k
      data := if r.data = [] then none else some (r.data.take k) }

theorem length_bytes {n : Nat} (h : n < 65536) :
    (UInt8.ofNat (n / 256)).toNat = n / 256 ∧
      (UInt8.ofNat (n / 256)).toNat <<< 8 ||| (UInt8.ofNat (n % 256)).toNat = n := by
  have hhigh : (UInt8.ofNat (n / 256)).toNat = n / 256 := by
    rw [UInt8.toNat_ofNat']
    omega
  have hlow : (UInt8.ofNat (n % 256)).toNat = n % 256 := by
    rw [UInt8.toNat_ofNat']
    omega
  refine ⟨hhigh, ?_⟩
  rw [hhigh, hlow, ← Nat.shiftLeft_add_eq_or_of_lt (Nat.mod_lt n (by decide : 0 < 256)) (n / 256),
    Nat.shiftLeft_eq]
  omega

theorem readData_part {k : Nat} (hr : l.reply = r.record last (k + 3))
    (hpart : l.pipe <+: r.data.drop k) (hshort : l.pipe.length < r.data.length - k) :
    l.readData = .error
      { l with
        pipe := [], reply := r.record last (k + l.pipe.length + 3)
        watched := if l.pipe = [] then true else l.watched } := by
  have hne : r.data ≠ [] := by
    rintro h
    simp [h] at hshort
  have htake : l.pipe.take (r.data.length - k) = l.pipe := take_of_length_le (by omega)
  have hdata : r.data.take k ++ l.pipe = r.data.take (k + l.pipe.length) := by
    rw [take_add, ← List.prefix_iff_eq_take.mp hpart]
  unfold Link.readData
  simp only [hr, SlinkReply.record, htake, hne, if_false, hdata]
  rw [if_pos (by omega)]
  by_cases hp : l.pipe = []
  · obtain ⟨pipe, reply, watched, dead, handled⟩ := l
    obtain rfl : pipe = [] := hp
    obtain rfl : reply = _ := hr
    simp [Link.nodata, SlinkReply.record, hne]
  · rw [if_neg hp, if_pos (by omega)]
    simp [hp]

theorem readData_all {k : Nat} {tail : List UInt8} (hr : l.reply = r.record last (k + 3))
    (hk : k ≤ r.data.length) (hpipe : l.pipe = r.data.drop k ++ tail) :
    l.readData = .ok { l with pipe := tail, reply := r.record last (r.data.length + 3) } := by
  unfold Link.readData
  by_cases hlast : k = r.data.length
  · subst hlast
    obtain ⟨pipe, reply, watched, dead, handled⟩ := l
    obtain rfl : reply = _ := hr
    obtain rfl : pipe = tail := by simpa using hpipe
    simp [SlinkReply.record]
  · have hlt : k < r.data.length := Nat.lt_of_le_of_ne hk hlast
    have hne : r.data ≠ [] := by
      rintro h
      simp [h] at hlt
    have htake : l.pipe.take (r.data.length - k) = r.data.drop k := by
      rw [hpipe, ← length_drop, take_left]
    have hdrop : l.pipe.drop (r.data.length - k) = tail := by
      rw [hpipe, ← length_drop, drop_left]
    have hdata : r.data.drop k ≠ [] := by simpa using hlt
    simp only [hr, SlinkReply.record, htake, hdata, hne, if_false, take_append_drop,
      length_drop, hdrop]
    rw [if_pos hlt, if_neg (by omega), Nat.add_sub_cancel' hk]
    simp

theorem replydef_of_hasData (h : hasData tab r.command = true) :
    ∃ d, replydef tab r.command = some d ∧ d.data = true := by
  unfold hasData at h
  cases hd : replydef tab r.command with
  | none => simp [hd] at h
  | some d => exact ⟨d, rfl, by simpa [hd] using h⟩

theorem readLength_none (hdata : hasData tab r.command = true) {offset : Nat}
    (hoffset : offset = 1 ∨ offset = 2) (hr : l.reply = r.record last offset) (hpipe : l.pipe = [])
      :
    l.readLength tab = .error l.nodata := by
  obtain ⟨d, hd, hflag⟩ := replydef_of_hasData hdata
  unfold Link.readLength
  rcases hoffset with rfl | rfl <;> simp [hr, SlinkReply.record, hd, hflag, hpipe]

theorem readLength_high {high : UInt8} (hdata : hasData tab r.command = true)
    (hr : l.reply = r.record last 1) (hhigh : high.toNat = r.data.length / 256)
    (hpipe : l.pipe = [high]) :
    l.readLength tab = .error { l with pipe := [], reply := r.record last 2 } := by
  obtain ⟨d, hd, hflag⟩ := replydef_of_hasData hdata
  unfold Link.readLength
  simp [hr, SlinkReply.record, hd, hflag, hpipe, Link.storeLength, hhigh]

theorem readLength_both {high low : UInt8} {tail : List UInt8}
    (hdata : hasData tab r.command = true)
    (hr : l.reply = r.record last 1) (hlength : high.toNat <<< 8 ||| low.toNat = r.data.length)
    (hpipe : l.pipe = high :: low :: tail) :
    l.readLength tab = .ok { l with pipe := tail, reply := r.record last 3 } := by
  obtain ⟨d, hd, hflag⟩ := replydef_of_hasData hdata
  unfold Link.readLength
  simp only [hr, SlinkReply.record, hd, hflag, hpipe, Link.storeLength]
  by_cases hne : r.data = []
  · simp [hlength, hne]
  · simp [hlength, hne, length_pos_iff]

theorem readLength_low {high low : UInt8} {tail : List UInt8} (hdata : hasData tab r.command = true)
    (hr : l.reply = r.record last 2) (hhigh : high.toNat = r.data.length / 256)
    (hlength : high.toNat <<< 8 ||| low.toNat = r.data.length) (hpipe : l.pipe = low :: tail) :
    l.readLength tab = .ok { l with pipe := tail, reply := r.record last 3 } := by
  obtain ⟨d, hd, hflag⟩ := replydef_of_hasData hdata
  rw [hhigh] at hlength
  unfold Link.readLength
  simp only [hr, SlinkReply.record, hd, hflag, hpipe, Link.storeLength]
  by_cases hne : r.data = []
  · have : low.toNat = 0 := by simpa [hne] using hlength
    simp [this, hne]
  · simp [hlength, hne, length_pos_iff]

theorem readLength_done (hdata : hasData tab r.command = true) {k : Nat}
    (hr : l.reply = r.record last (k + 3)) : l.readLength tab = .ok l := by
  obtain ⟨d, hd, hflag⟩ := replydef_of_hasData hdata
  unfold Link.readLength
  simp [hr, SlinkReply.record, hd]

theorem readCommand_done (hr : l.reply.command ≠ 0) : l.readCommand = .ok l := by
  rw [Link.readCommand, if_neg hr]

theorem record_command {offset : Nat} (h : 0 < offset) : (r.record last offset).command =
    r.command := by
  match offset, h with
  | 1, _ => rfl
  | 2, _ => rfl
  | _ + 3, _ => rfl

theorem bytes_of_hasData (hdata : hasData tab r.command = true) (hwf : r.WellFormed tab) :
    ∃ high low : UInt8, r.bytes tab = r.command :: high :: low :: r.data ∧
      high.toNat = r.data.length / 256 ∧ high.toNat <<< 8 ||| low.toNat = r.data.length := by
  obtain ⟨hhigh, hlength⟩ := length_bytes hwf.short
  exact ⟨_, _, by rw [SlinkReply.bytes, if_pos hdata], hhigh, hlength⟩

theorem torn_single (hdata : hasData tab r.command = true) {p : Nat}
    (hp : p < (r.bytes tab).length) : torn tab [r] p = (p == 2 || decide (3 < p)) := by
  rw [torn, if_pos hp, hdata, Bool.true_and]

theorem torn_one : torn tab [r] 1 = false := by
  simp [torn]

theorem torn_three : torn tab [r] 3 = false := by
  simp [torn]

/-- What a call that stopped in a reply leaves. -/
def Link.stopped (tab : List SlinkRplDef) (r : SlinkReply) (last offset : Nat) (l : Link) : Link :=
  { l with
    pipe := [], reply := r.record last offset
    watched := if l.pipe = [] ∨ torn tab [r] offset = false then true else l.watched }

theorem readData_stopped (hdata : hasData tab r.command = true)
    (hlong : (r.bytes tab).length = r.data.length + 3) {k : Nat}
    (hr : l.reply = r.record last (k + 3)) (hpart : l.pipe <+: r.data.drop k)
    (hshort : l.pipe.length < r.data.length - k) :
    l.readData = .error (l.stopped tab r last (k + 3 + l.pipe.length)) := by
  have hsum : k + 3 + l.pipe.length = k + l.pipe.length + 3 := by omega
  rw [readData_part hr hpart hshort, Link.stopped, hsum, torn_single hdata (by omega)]
  by_cases hp : l.pipe = []
  · simp [hp]
  · simp [hp]

theorem reads_behind_part (hdata : hasData tab r.command = true) (hwf : r.WellFormed tab)
    {offset : Nat} (hpos : 0 < offset) (hr : l.reply = r.record last offset)
    (hpart : l.pipe <+: (r.bytes tab).drop offset)
    (hshort : l.pipe.length < (r.bytes tab).length - offset) :
    (l.readLength tab >>= Link.readData) =
      .error (l.stopped tab r last (offset + l.pipe.length)) := by
  obtain ⟨high, low, hbytes, hhigh, hlength⟩ := bytes_of_hasData hdata hwf
  have hlong : (r.bytes tab).length = r.data.length + 3 := by simp [hbytes]
  rw [hbytes] at hpart
  obtain ⟨pipe, reply, watched, dead, handled⟩ := l
  simp only at hr hpart hshort ⊢
  match offset, hpos with
  | 1, _ =>
    rcases pipe with _ | ⟨b, pipe⟩
    · rw [readLength_none hdata (.inl rfl) hr rfl]
      simp [Link.nodata, Link.stopped, hr, bind, Except.bind]
    have hfirst : b :: pipe <+: high :: low :: r.data := hpart
    obtain ⟨rfl, hpart₁⟩ := List.cons_prefix_cons.mp hfirst
    rcases pipe with _ | ⟨c, pipe⟩
    · rw [readLength_high hdata hr hhigh rfl]
      simp [Link.stopped, torn_single hdata, hlong, bind, Except.bind]
    obtain ⟨rfl, hpart₂⟩ := List.cons_prefix_cons.mp hpart₁
    simp only [length_cons] at hshort
    rw [readLength_both hdata hr hlength rfl]
    refine (readData_stopped (k := 0) hdata hlong (show _ = r.record last 3 from rfl) hpart₂
      ?_).trans ?_
    · simp only
      omega
    · have : 0 + 3 + pipe.length = 1 + (pipe.length + 1 + 1) := by omega
      simp only [Link.stopped, this, length_cons]
      rcases pipe with _ | ⟨d, pipe⟩
      · simp [torn_three]
      · simp
  | 2, _ =>
    rcases pipe with _ | ⟨b, pipe⟩
    · rw [readLength_none hdata (.inr rfl) hr rfl]
      simp [Link.nodata, Link.stopped, hr, bind, Except.bind]
    have hfirst : b :: pipe <+: low :: r.data := hpart
    obtain ⟨rfl, hpart₁⟩ := List.cons_prefix_cons.mp hfirst
    simp only [length_cons] at hshort
    rw [readLength_low hdata hr hhigh hlength rfl]
    refine (readData_stopped (k := 0) hdata hlong (show _ = r.record last 3 from rfl) hpart₁
      ?_).trans ?_
    · simp only
      omega
    · have : 0 + 3 + pipe.length = 2 + (pipe.length + 1) := by omega
      simp only [Link.stopped, this, length_cons]
      rcases pipe with _ | ⟨d, pipe⟩
      · simp [torn_three]
      · simp
  | k + 3, _ =>
    rw [readLength_done hdata hr]
    exact readData_stopped hdata hlong hr hpart (by simp only; omega)

theorem reads_behind_all (hdata : hasData tab r.command = true) (hwf : r.WellFormed tab)
    {offset : Nat} {tail : List UInt8} (hpos : 0 < offset) (hr : l.reply = r.record last offset)
    (hoffset : offset < (r.bytes tab).length) (hpipe : l.pipe = (r.bytes tab).drop offset ++ tail) :
    (l.readLength tab >>= Link.readData) =
      .ok { l with pipe := tail, reply := r.record last (r.data.length + 3) } := by
  obtain ⟨high, low, hbytes, hhigh, hlength⟩ := bytes_of_hasData hdata hwf
  rw [hbytes] at hpipe hoffset
  simp only [length_cons] at hoffset
  match offset, hpos with
  | 1, _ =>
    rw [readLength_both hdata hr hlength hpipe]
    exact readData_all (k := 0) rfl (Nat.zero_le _) rfl
  | 2, _ =>
    rw [readLength_low hdata hr hhigh hlength hpipe]
    exact readData_all (k := 0) rfl (Nat.zero_le _) rfl
  | k + 3, _ =>
    rw [readLength_done hdata hr]
    exact readData_all hr (by omega) hpipe

theorem readCommand_first (hc : l.reply.command = 0) (hlast : l.reply.datalen = last) {c : UInt8}
    {tail : List UInt8} (hpipe : l.pipe = c :: tail) :
    l.readCommand = .ok { l with pipe := tail, reply := { command := c, datalen := last } } := by
  obtain ⟨pipe, ⟨command, datalen, gotdatalen, readdata, data⟩, watched, dead, handled⟩ := l
  obtain rfl : pipe = c :: tail := hpipe
  obtain rfl : command = 0 := hc
  obtain rfl : datalen = last := hlast
  rfl

theorem readCommand_none (hc : l.reply.command = 0) (hpipe : l.pipe = []) :
    l.readCommand = .error
      { l with
        watched := true
        reply := { l.reply with gotdatalen := 0, readdata := 0, data := none } } := by
  obtain ⟨pipe, reply, watched, dead, handled⟩ := l
  obtain rfl : pipe = [] := hpipe
  rw [Link.readCommand, if_pos hc]
  rfl

/-! ### One call -/

def Link.reads (tab : List SlinkRplDef) (l : Link) : Except Link Link :=
  l.readCommand >>= Link.readLength tab >>= Link.readData

/-- The record in front of a reply or in the middle of one. -/
def Reads (r : SlinkReply) (last offset : Nat) (reply : SlinkRpl) : Prop :=
  if offset = 0 then reply.command = 0 ∧ reply.datalen = last else reply = r.record last offset

theorem Reads.start {reply : SlinkRpl} (hc : reply.command = 0) (hlast : reply.datalen = last) :
    Reads r last 0 reply := by
  rw [Reads, if_pos rfl]
  exact ⟨hc, hlast⟩

theorem Reads.of_record {offset : Nat} (hpos : 0 < offset) :
    Reads r last offset (r.record last offset) := by
  rw [Reads, if_neg (Nat.ne_of_gt hpos)]

theorem reads_part (hdata : hasData tab r.command = true) (hwf : r.WellFormed tab) {offset : Nat}
    (hr : Reads r last offset l.reply) (hpart : l.pipe <+: (r.bytes tab).drop offset)
    (hshort : l.pipe.length < (r.bytes tab).length - offset) :
    ∃ reply, Reads r last (offset + l.pipe.length) reply ∧
      l.reads tab = .error
        { l with
          pipe := [], reply := reply
          watched := if l.pipe = [] ∨ torn tab [r] (offset + l.pipe.length) = false then true
            else l.watched } := by
  unfold Link.reads
  by_cases hzero : offset = 0
  · subst hzero
    obtain ⟨hc, hlast⟩ : l.reply.command = 0 ∧ l.reply.datalen = last := by
      simpa only [Reads, if_true] using hr
    cases hpipe : l.pipe with
    | nil =>
      rw [readCommand_none hc hpipe]
      exact ⟨{ l.reply with gotdatalen := 0, readdata := 0, data := none }, Reads.start hc hlast,
        by simp [bind, Except.bind, hpipe]⟩
    | cons c tail =>
      rw [hpipe] at hpart hshort
      have hpart' : c :: tail <+: r.command :: (r.bytes tab).drop 1 := by
        obtain ⟨high, low, hbytes, -⟩ := bytes_of_hasData hdata hwf
        rwa [hbytes] at hpart ⊢
      obtain ⟨rfl, htail⟩ := List.cons_prefix_cons.mp hpart'
      simp only [length_cons] at hshort
      rw [readCommand_first hc hlast hpipe]
      have hrest := reads_behind_part (l := { l with
        pipe := tail, reply := { command := r.command, datalen := last } }) hdata hwf
        Nat.one_pos (show _ = r.record last 1 from rfl) htail
        (show tail.length < (r.bytes tab).length - 1 by omega)
      have hpos : 0 < 0 + (r.command :: tail).length := by simp
      refine ⟨_, Reads.of_record hpos, hrest.trans ?_⟩
      have : 1 + tail.length = 0 + (tail.length + 1) := by omega
      simp only [Link.stopped, this, length_cons]
      rcases tail with _ | ⟨d, tail⟩
      · simp [torn_one]
      · simp
  · have hpos : 0 < offset := Nat.pos_of_ne_zero hzero
    have hrecord : l.reply = r.record last offset := by simpa only [Reads, hzero, if_false] using hr
    rw [readCommand_done (by rw [hrecord, record_command hpos]; exact hwf.nonzero)]
    exact ⟨_, Reads.of_record (by omega), reads_behind_part hdata hwf hpos hrecord hpart hshort⟩

theorem reads_all (hdata : hasData tab r.command = true) (hwf : r.WellFormed tab) {offset : Nat}
    {tail : List UInt8} (hr : Reads r last offset l.reply) (hoffset : offset < (r.bytes tab).length)
    (hpipe : l.pipe = (r.bytes tab).drop offset ++ tail) :
    l.reads tab = .ok { l with pipe := tail, reply := r.record last (r.data.length + 3) } := by
  unfold Link.reads
  by_cases hzero : offset = 0
  · subst hzero
    obtain ⟨hc, hlast⟩ : l.reply.command = 0 ∧ l.reply.datalen = last := by
      simpa only [Reads, if_true] using hr
    obtain ⟨high, low, hbytes, -⟩ := bytes_of_hasData hdata hwf
    have hfirst : l.pipe = r.command :: ((r.bytes tab).drop 1 ++ tail) := by
      rw [hpipe, hbytes]
      rfl
    rw [readCommand_first hc hlast hfirst]
    exact reads_behind_all (l := { l with
      pipe := (r.bytes tab).drop 1 ++ tail, reply := { command := r.command, datalen := last } })
      hdata hwf Nat.one_pos (show _ = r.record last 1 from rfl) (by simp [hbytes]) rfl
  · have hpos : 0 < offset := Nat.pos_of_ne_zero hzero
    have hrecord : l.reply = r.record last offset := by simpa only [Reads, hzero, if_false] using hr
    rw [readCommand_done (by rw [hrecord, record_command hpos]; exact hwf.nonzero)]
    exact reads_behind_all hdata hwf hpos hrecord hoffset hpipe

theorem replydef_of_noData (hwf : r.WellFormed tab) (hdata : hasData tab r.command = false) :
    ∃ d, replydef tab r.command = some d ∧ d.data = false := by
  obtain ⟨d, hd⟩ := Option.isSome_iff_exists.mp hwf.known
  exact ⟨d, hd, by simpa [hasData, hd] using hdata⟩

theorem reads_command (hdata : hasData tab r.command = false) (hwf : r.WellFormed tab)
    {tail : List UInt8} (hr : Reads r 0 0 l.reply) (hpipe : l.pipe = r.command :: tail) :
    l.reads tab = .ok { l with pipe := tail, reply := { command := r.command } } := by
  obtain ⟨hc, hlast⟩ : l.reply.command = 0 ∧ l.reply.datalen = 0 := by
    simpa only [Reads, if_true] using hr
  obtain ⟨d, hd, hflag⟩ := replydef_of_noData hwf hdata
  rw [Link.reads, readCommand_first hc hlast hpipe]
  simp [Link.readLength, Link.readData, hd, hflag, bind, Except.bind]

/-- A link that will read no more: dead, or at a reply without data with a
length left behind. -/
def Link.Stuck (tab : List SlinkRplDef) (l : Link) : Prop :=
  l.dead = true ∨ ∃ d, replydef tab l.reply.command = some d ∧ l.reply.command ≠ 0 ∧
    d.data = false ∧
    l.reply.data = none ∧ l.reply.readdata < l.reply.datalen

theorem Link.Stuck.call (h : l.Stuck tab) :
    (l.call tab).Stuck tab ∧ (l.call tab).handled = l.handled := by
  unfold Link.call
  rcases h with hdead | ⟨d, hd, hc, hflag, hnull, hlt⟩
  · rw [if_pos hdead]
    exact ⟨.inl hdead, rfl⟩
  · by_cases hdead : l.dead = true
    · rw [if_pos hdead]
      exact ⟨.inl hdead, rfl⟩
    · rw [if_neg hdead, readCommand_done hc]
      by_cases hp : l.pipe = []
      · simp [Link.readLength, Link.readData, hd, hflag, hlt, hp, bind, Except.bind, Link.nodata,
          Link.Stuck, hc, hnull]
      · have : l.pipe.take (l.reply.datalen - l.reply.readdata) ≠ [] := by
          simp [hp]
          omega
        simp [Link.readLength, Link.readData, hd, hflag, hlt, hnull, this, bind, Except.bind,
          Link.die, Link.Stuck]

/-! ### Where a link is in its replies -/

def replyBytes (tab : List SlinkRplDef) (rs : List SlinkReply) : List UInt8 :=
  rs.flatMap (·.bytes tab)

/-- The link has handled the replies `done` and read `offset` bytes of the next;
`last` is the length its record holds, and `future` has not arrived yet. -/
structure Link.At (tab : List SlinkRplDef) (rs : List SlinkReply) (l : Link) (future : List UInt8)
    (done todo : List SlinkReply) (last offset : Nat) : Prop where
  split : rs = done ++ todo
  handled : l.handled = done.map SlinkReply.handlerCall
  stale : noStale tab 0 rs = noStale tab last todo
  coming : l.pipe ++ future = (replyBytes tab todo).drop offset
  alive : l.dead = true → todo = []
  start : offset = 0 → l.reply.command = 0 ∧ l.reply.datalen = last
  inside : offset ≠ 0 → ∃ r rest, todo = r :: rest ∧ hasData tab r.command = true ∧
    offset < (r.bytes tab).length ∧ l.reply = r.record last offset

/-- The link hangs at a reply without data. -/
structure Link.Behind (tab : List SlinkRplDef) (rs : List SlinkReply) (l : Link) : Prop where
  stuck : l.Stuck tab
  stale : noStale tab 0 rs = false
  short : ∃ done todo, rs = done ++ todo ∧ todo ≠ [] ∧ l.handled = done.map SlinkReply.handlerCall

variable {done todo : List SlinkReply} {future : List UInt8} {offset : Nat}

theorem bytes_ne_nil : r.bytes tab ≠ [] := by
  unfold SlinkReply.bytes
  split <;> exact nofun

theorem Link.At.finished (h : l.At tab rs [] done todo last offset) (hpipe : l.pipe = []) :
    todo = [] := by
  have hcoming := h.coming
  rw [hpipe] at hcoming
  cases todo with
  | nil => rfl
  | cons r rest =>
    exfalso
    have hlt : offset < (r.bytes tab).length := by
      by_cases hzero : offset = 0
      · rw [hzero]
        exact List.length_pos_iff.mpr bytes_ne_nil
      · obtain ⟨r', rest', heq, -, hlt, -⟩ := h.inside hzero
        obtain ⟨rfl, -⟩ := List.cons.inj heq
        exact hlt
    have := congrArg List.length hcoming
    simp only [replyBytes, flatMap_cons, length_drop, length_append,
      length_nil] at this
    omega

theorem Link.At.arrive {bytes : List UInt8} (h : l.At tab rs (bytes ++ future) done todo last
    offset) :
    (l.arrive bytes).At tab rs future done todo last offset :=
  ⟨h.split, h.handled, h.stale, by rw [← h.coming, Link.arrive, append_assoc], h.alive,
    h.start,
    h.inside⟩

theorem Link.Behind.arrive {bytes : List UInt8} (h : l.Behind tab rs) :
    (l.arrive bytes).Behind tab rs := ⟨h.stuck, h.stale, h.short⟩

theorem Link.Behind.call (h : l.Behind tab rs) : (l.call tab).Behind tab rs := by
  obtain ⟨hstuck, hhandled⟩ := h.stuck.call
  obtain ⟨done, todo, hsplit, hne, hdone⟩ := h.short
  exact ⟨hstuck, h.stale, done, todo, hsplit, hne, hhandled.trans hdone⟩

theorem WellFormedReplies.rest_of_exits (hwf : WellFormedReplies tab (done ++ r :: todo))
    (h : ((replydef tab r.command).map SlinkRplDef.exits).getD false = true) : todo = [] := by
  by_contra hne
  have hmem : r ∈ (done ++ r :: todo).dropLast := by
    rw [dropLast_append_cons, dropLast_cons_of_ne_nil hne]
    simp
  rw [hwf.last r hmem] at h
  cases h

theorem Link.At.dispatch (hwf : WellFormedReplies tab rs)
    (h : l.At tab rs future done (r :: todo) last offset) (hlive : l.dead = false) {m : Link}
    {next : Nat} (hm : m.handled = l.handled) (hdead : m.dead = l.dead)
    (hpipe : m.pipe ++ future = replyBytes tab todo) (hcommand : m.reply.command = r.command)
    (hcall : (⟨m.reply.command, m.reply.datalen, m.reply.data⟩ : HandlerCall) = r.handlerCall)
    (hnext : m.reply.datalen = next) (hstale : noStale tab last (r :: todo) = noStale tab next todo)
      :
    (m.dispatch tab).At tab rs future (done ++ [r]) todo next 0 ∧
      ((m.dispatch tab).watched = true ∨ todo = []) ∧ (m.dispatch tab).pipe = m.pipe := by
  have hsplit := h.split
  have hexit : ((replydef tab r.command).map SlinkRplDef.exits).getD false = true → todo = [] :=
    fun hx => (hsplit ▸ hwf).rest_of_exits hx
  have hhandled : m.handled ++ [r.handlerCall] = (done ++ [r]).map SlinkReply.handlerCall := by
    rw [hm, h.handled]
    simp
  unfold Link.dispatch
  rw [hcommand] at hcall ⊢
  rw [hcall, hhandled]
  cases hx : ((replydef tab r.command).map SlinkRplDef.exits).getD false with
  | true =>
    refine ⟨⟨by simp [hsplit], rfl, h.stale.trans hstale, ?_, fun _ => hexit hx,
      fun _ => ⟨rfl, hnext⟩, fun hne => absurd rfl hne⟩, .inr (hexit hx), rfl⟩
    simpa [Link.die] using hpipe
  | false =>
    refine ⟨⟨by simp [hsplit], rfl, h.stale.trans hstale, ?_, fun hd => ?_,
      fun _ => ⟨rfl, hnext⟩, fun hne => absurd rfl hne⟩, .inl rfl, rfl⟩
    · simpa [Link.nodata] using hpipe
    · have : m.dead = true := hd
      rw [hdead, hlive] at this
      cases this

theorem Link.call_of_ok {m : Link} (hlive : l.dead = false) (h : l.reads tab = .ok m) :
    l.call tab = m.dispatch tab := by
  rw [Link.call, hlive, if_neg Bool.false_ne_true]
  change (match l.reads tab with | .error l => l | .ok l => l.dispatch tab) = _
  rw [h]

theorem Link.call_of_error {m : Link} (hlive : l.dead = false) (h : l.reads tab = .error m) :
    l.call tab = m := by
  rw [Link.call, hlive, if_neg Bool.false_ne_true]
  change (match l.reads tab with | .error l => l | .ok l => l.dispatch tab) = _
  rw [h]

theorem Link.At.call_idle (hwf : WellFormedReplies tab rs)
    (h : l.At tab rs future done todo last offset) (hpipe : l.pipe = []) :
    (l.call tab).At tab rs future done todo last offset ∧ (l.call tab).pipe = [] := by
  by_cases hdead : l.dead = true
  · rw [Link.call, if_pos hdead]
    exact ⟨h, hpipe⟩
  have hlive : l.dead = false := by simpa using hdead
  by_cases hzero : offset = 0
  · obtain ⟨hc, hlast⟩ := h.start hzero
    have hreads : l.reads tab = .error
        { l with
          watched := true
          reply := { l.reply with gotdatalen := 0, readdata := 0, data := none } } := by
      rw [Link.reads, readCommand_none hc hpipe]
      rfl
    rw [Link.call_of_error hlive hreads]
    exact ⟨⟨h.split, h.handled, h.stale, h.coming, h.alive, fun _ => ⟨hc, hlast⟩,
      fun hne => absurd hzero hne⟩, hpipe⟩
  · obtain ⟨r, rest, rfl, hdata, hlt, hr⟩ := h.inside hzero
    have hr' : Reads r last offset l.reply := by
      rw [Reads, if_neg hzero]
      exact hr
    have hrwf := hwf.each r (by rw [h.split]; simp)
    obtain ⟨reply, hreply, hreads⟩ := reads_part hdata hrwf hr'
        (by rw [hpipe]; exact nil_prefix)
      (by rw [hpipe, length_nil]; omega)
    rw [hpipe, length_nil, Nat.add_zero, Reads, if_neg hzero] at hreply
    rw [Link.call_of_error hlive hreads]
    refine ⟨⟨h.split, h.handled, h.stale, ?_, h.alive, fun hz => absurd hz hzero,
      fun _ => ⟨r, rest, rfl, hdata, hlt, hreply⟩⟩, rfl⟩
    rw [← h.coming, hpipe]

theorem torn_zero : torn tab rs 0 = false := by
  cases rs with
  | nil => rfl
  | cons r rs => simp [torn, length_pos_iff, bytes_ne_nil]

theorem torn_head {p : Nat} (hp : p < (r.bytes tab).length) :
    torn tab (r :: rs) p = torn tab [r] p := by
  rw [torn, torn, if_pos hp, if_pos hp]

theorem Link.At.reading (h : l.At tab rs future done (r :: todo) last offset) :
    Reads r last offset l.reply ∧ offset < (r.bytes tab).length := by
  by_cases hzero : offset = 0
  · rw [Reads, if_pos hzero, hzero]
    exact ⟨h.start hzero, List.length_pos_iff.mpr bytes_ne_nil⟩
  · obtain ⟨r', rest', heq, -, hlt, hr⟩ := h.inside hzero
    obtain ⟨rfl, -⟩ := List.cons.inj heq
    rw [Reads, if_neg hzero]
    exact ⟨hr, hlt⟩

/-- What a call makes of a link: it has read on to a place where it waits for
more, or to one where it does not. -/
def Link.Advanced (tab : List SlinkRplDef) (rs : List SlinkReply) (future : List UInt8)
    (l m : Link) : Prop :=
  ∃ done todo last offset, m.At tab rs future done todo last offset ∧
    m.pipe.length < l.pipe.length ∧
    (torn tab todo offset = false → m.watched = true ∨ todo = []) ∧
    (torn tab todo offset = true → m.watched = l.watched ∧ m.pipe = [])

theorem Link.At.call_data (hwf : WellFormedReplies tab rs)
    (h : l.At tab rs future done (r :: todo) last offset) (hdata : hasData tab r.command = true)
    (hlive : l.dead = false) (hpipe : l.pipe ≠ []) : l.Advanced tab rs future (l.call tab) := by
  have hrwf := hwf.each r (by rw [h.split]; simp)
  obtain ⟨hr, hlt⟩ := h.reading
  have hcoming : l.pipe ++ future = (r.bytes tab).drop offset ++ replyBytes tab todo := by
    rw [h.coming, replyBytes, flatMap_cons, drop_append_of_le_length (Nat.le_of_lt hlt)]
    rfl
  have hlength : ((r.bytes tab).drop offset).length = (r.bytes tab).length - offset :=
    length_drop
  by_cases hshort : l.pipe.length < (r.bytes tab).length - offset
  · have hpart : l.pipe <+: (r.bytes tab).drop offset :=
      prefix_of_prefix_length_le ⟨future, hcoming⟩ (prefix_append ..) (by omega)
    obtain ⟨missing, hmissing⟩ := hpart
    have hfuture : future = missing ++ replyBytes tab todo := by
      rw [← hmissing, append_assoc] at hcoming
      exact append_cancel_left hcoming
    obtain ⟨reply, hreply, hreads⟩ := reads_part hdata hrwf hr ⟨missing, hmissing⟩ hshort
    have hpos : 0 < l.pipe.length := List.length_pos_iff.mpr hpipe
    have hlt' : offset + l.pipe.length < (r.bytes tab).length := by omega
    rw [Reads, if_neg (by omega)] at hreply
    rw [Link.call_of_error hlive hreads]
    refine ⟨done, r :: todo, last, offset + l.pipe.length,
      ⟨h.split, h.handled, h.stale, ?_, h.alive,
      fun hz => by omega, fun _ => ⟨r, todo, rfl, hdata, hlt', hreply⟩⟩, hpos, fun htorn => ?_,
      fun htorn => ⟨?_, rfl⟩⟩
    · rw [replyBytes, flatMap_cons, drop_append_of_le_length (Nat.le_of_lt hlt'),
        ← drop_drop,
        ← hmissing, drop_left]
      exact hfuture
    · rw [torn_head hlt'] at htorn
      exact .inl (if_pos (.inr htorn))
    · rw [torn_head hlt'] at htorn
      exact if_neg (by simp [hpipe, htorn])
  · have hall : (r.bytes tab).drop offset <+: l.pipe :=
      prefix_of_prefix_length_le (prefix_append ..) ⟨future, hcoming⟩ (by omega)
    obtain ⟨tail, htail⟩ := hall
    have hfuture : tail ++ future = replyBytes tab todo := by
      rw [← htail, append_assoc] at hcoming
      exact append_cancel_left hcoming
    rw [Link.call_of_ok hlive (reads_all hdata hrwf hr hlt htail.symm)]
    have hstale : noStale tab last (r :: todo) = noStale tab r.data.length todo := by
      rw [noStale, if_pos hdata]
    obtain ⟨hat, hwatched, hrest⟩ := h.dispatch hwf hlive
      (m := { l with pipe := tail, reply := r.record last (r.data.length + 3) })
      rfl rfl hfuture rfl (by simp [SlinkReply.record, SlinkReply.handlerCall]) rfl hstale
    refine ⟨_, _, _, _, hat, ?_, fun _ => hwatched, fun htorn => ?_⟩
    · rw [hrest, ← htail, length_append, hlength]
      simp only
      omega
    · rw [torn_zero] at htorn
      cases htorn

theorem Link.At.call_command (hwf : WellFormedReplies tab rs)
    (h : l.At tab rs future done (r :: todo) last offset) (hdata : hasData tab r.command = false)
    (hlive : l.dead = false) (hpipe : l.pipe ≠ []) :
    (l.call tab).Behind tab rs ∨ l.Advanced tab rs future (l.call tab) := by
  have hrwf := hwf.each r (by rw [h.split]; simp)
  have hzero : offset = 0 := by
    by_contra hne
    obtain ⟨r', rest', heq, hd, -⟩ := h.inside hne
    obtain ⟨rfl, -⟩ := List.cons.inj heq
    rw [hdata] at hd
    cases hd
  obtain ⟨hc, hlast⟩ := h.start hzero
  have hbytes : r.bytes tab = [r.command] := by rw [SlinkReply.bytes, hdata,
      if_neg Bool.false_ne_true]
  have hcoming := h.coming
  rw [hzero, drop_zero, replyBytes, flatMap_cons, hbytes, singleton_append]
    at hcoming
  obtain ⟨c, tail, hsplit⟩ := exists_cons_of_ne_nil hpipe
  rw [hsplit, cons_append] at hcoming
  obtain ⟨rfl, hfuture⟩ := List.cons.inj hcoming
  by_cases hnone : last = 0
  · right
    subst hnone
    rw [Link.call_of_ok hlive (reads_command hdata hrwf (Reads.start hc hlast) hsplit)]
    have hempty := hrwf.noData hdata
    have hstale : noStale tab 0 (r :: todo) = noStale tab 0 todo := by
      rw [noStale, hdata, if_neg Bool.false_ne_true]
      rfl
    obtain ⟨hat, hwatched, hrest⟩ := h.dispatch hwf hlive
      (m := { l with pipe := tail, reply := { command := r.command } })
      rfl rfl hfuture rfl (by simp [SlinkReply.handlerCall, hempty]) rfl hstale
    refine ⟨_, _, _, _, hat, ?_, fun _ => hwatched, fun htorn => ?_⟩
    · rw [hrest, hsplit, length_cons]
      exact Nat.lt_succ_self _
    · rw [torn_zero] at htorn
      cases htorn
  · left
    obtain ⟨d, hd, hflag⟩ := replydef_of_noData hrwf hdata
    have hpos : 0 < last := Nat.pos_of_ne_zero hnone
    have hfirst := readCommand_first hc hlast hsplit
    have hstale : noStale tab 0 rs = false := by
      rw [h.stale, noStale, hdata, if_neg Bool.false_ne_true]
      simp [hnone]
    have hshort : ∃ done todo, rs = done ++ todo ∧ todo ≠ [] ∧
        l.handled = done.map SlinkReply.handlerCall := ⟨done, r :: todo, h.split, nofun, h.handled⟩
    cases htail : tail with
    | nil =>
      have hreads : l.reads tab = .error
          { l with pipe := [], watched := true, reply := { command := r.command, datalen := last } } := by
        rw [Link.reads, hfirst, htail]
        simp [Link.readLength, Link.readData, hd, hflag, hpos, Link.nodata, bind, Except.bind]
      rw [Link.call_of_error hlive hreads]
      exact ⟨.inr ⟨d, hd, hrwf.nonzero, hflag, rfl, hpos⟩, hstale, hshort⟩
    | cons b tail =>
      have htake : (b :: tail).take last ≠ [] := by
        rw [Ne, take_eq_nil_iff]
        simp [hnone]
      have hreads : l.reads tab = .error
          { l with
            pipe := b :: tail, dead := true
            reply := { command := r.command, datalen := last } } := by
        rw [Link.reads, hfirst, htail]
        simp [Link.readLength, Link.readData, hd, hflag, hpos, htake, Link.die, bind, Except.bind]
      rw [Link.call_of_error hlive hreads]
      exact ⟨.inl rfl, hstale, hshort⟩

theorem Link.At.call (hwf : WellFormedReplies tab rs)
    (h : l.At tab rs future done todo last offset) (hlive : l.dead = false) (hpipe : l.pipe ≠ []) :
    (l.call tab).Behind tab rs ∨ l.Advanced tab rs future (l.call tab) := by
  cases todo with
  | nil =>
    have hcoming := h.coming
    rw [replyBytes, flatMap_nil, drop_nil] at hcoming
    exact absurd (List.append_eq_nil_iff.mp hcoming).1 hpipe
  | cons r rest =>
    cases hdata : hasData tab r.command with
    | true => exact .inr (h.call_data hwf hdata hlive hpipe)
    | false => exact h.call_command hwf hdata hlive hpipe

/-! ### Successive calls -/

/-- A link is somewhere in its replies, or hangs. -/
def Link.Somewhere (tab : List SlinkRplDef) (rs : List SlinkReply) (l : Link)
    (future : List UInt8) : Prop :=
  l.Behind tab rs ∨ ∃ done todo last offset, l.At tab rs future done todo last offset

theorem Link.Somewhere.call (hwf : WellFormedReplies tab rs) (h : l.Somewhere tab rs future) :
    (l.call tab).Somewhere tab rs future := by
  rcases h with h | ⟨done, todo, last, offset, h⟩
  · exact .inl h.call
  · by_cases hpipe : l.pipe = []
    · exact .inr ⟨_, _, _, _, (h.call_idle hwf hpipe).1⟩
    · by_cases hdead : l.dead = true
      · rw [Link.call, if_pos hdead]
        exact .inr ⟨_, _, _, _, h⟩
      · rcases h.call hwf (by simpa using hdead) hpipe with hb | ⟨_, _, _, _, hat, -⟩
        · exact .inl hb
        · exact .inr ⟨_, _, _, _, hat⟩

theorem Link.Somewhere.run (hwf : WellFormedReplies tab rs) {es : List PipeEvent}
    (h : l.Somewhere tab rs (arrivals es ++ future)) :
    (es.foldl (Link.step tab) l).Somewhere tab rs future := by
  induction es generalizing l with
  | nil => exact h
  | cons e es ih =>
    apply ih
    cases e with
    | arrive bytes =>
      rw [arrivals, append_assoc] at h
      rcases h with h | ⟨_, _, _, _, h⟩
      · exact .inl h.arrive
      · exact .inr ⟨_, _, _, _, h.arrive⟩
    | call => exact h.call hwf

theorem handled_short (h : ∃ done todo, rs = done ++ todo ∧ todo ≠ [] ∧
    l.handled = done.map SlinkReply.handlerCall) : l.handled ≠ rs.map SlinkReply.handlerCall := by
  obtain ⟨done, todo, hsplit, hne, hdone⟩ := h
  intro hall
  have := congrArg List.length (hdone.symm.trans hall)
  have hpos := List.length_pos_iff.mpr hne
  simp only [hsplit, length_map, length_append] at this
  omega

/-- Everything is handled, or the link hangs. -/
def Link.Settled (tab : List SlinkRplDef) (rs : List SlinkReply) (l : Link) : Prop :=
  l.handled = rs.map SlinkReply.handlerCall ↔ noStale tab 0 rs = true

theorem Link.Behind.settled (h : l.Behind tab rs) : l.Settled tab rs := by
  refine ⟨fun hall => absurd hall (handled_short h.short), fun hstale => ?_⟩
  rw [h.stale] at hstale
  cases hstale

theorem Link.At.settled (h : l.At tab rs future done [] last offset) : l.Settled tab rs := by
  have hsplit := h.split
  rw [append_nil] at hsplit
  exact ⟨fun _ => h.stale, fun _ => hsplit ▸ h.handled⟩

theorem Link.Behind.calls (h : l.Behind tab rs) (n : Nat) :
    ((List.replicate n PipeEvent.call).foldl (Link.step tab) l).Behind tab rs := by
  induction n generalizing l with
  | zero => exact h
  | succ n ih => exact ih h.call

theorem Link.dead_calls (h : l.dead = true) (n : Nat) :
    (List.replicate n PipeEvent.call).foldl (Link.step tab) l = l := by
  induction n with
  | zero => rfl
  | succ n ih =>
    have : Link.step tab l .call = l := by rw [Link.step, Link.call, if_pos h]
    rw [replicate_succ, foldl_cons, this, ih]

theorem Link.At.settled_calls (hwf : WellFormedReplies tab rs) {n : Nat}
    (h : l.At tab rs [] done todo last offset) (hn : l.pipe.length ≤ n) :
    ((List.replicate n PipeEvent.call).foldl (Link.step tab) l).Settled tab rs := by
  induction n generalizing l done todo last offset with
  | zero =>
    obtain rfl := h.finished (List.length_eq_zero_iff.mp (Nat.le_zero.mp hn))
    exact h.settled
  | succ n ih =>
    by_cases hdead : l.dead = true
    · obtain rfl := h.alive hdead
      rw [Link.dead_calls hdead]
      exact h.settled
    rw [replicate_succ, foldl_cons]
    by_cases hpipe : l.pipe = []
    · obtain ⟨hat, hempty⟩ := h.call_idle hwf hpipe
      exact ih hat (by simp [Link.step, hempty])
    · rcases h.call hwf (by simpa using hdead) hpipe with hb | ⟨_, _, _, _, hat, hless, -⟩
      · exact (hb.calls n).settled
      · exact ih hat (Nat.le_of_lt_succ (hless.trans_le hn))

theorem Link.at_start : ({} : Link).At tab rs (replyBytes tab rs) [] rs 0 0 :=
  ⟨rfl, rfl, rfl, rfl, nofun, fun _ => ⟨rfl, rfl⟩, fun h => absurd rfl h⟩

theorem successive_calls (hwf : WellFormedReplies tab rs) {es : List PipeEvent}
    (hes : arrivals es = replyBytes tab rs) {n : Nat} (hn : (replyBytes tab rs).length ≤ n) :
    ((es ++ List.replicate n PipeEvent.call).foldl (Link.step tab) {}).Settled tab rs := by
  have hstart : ({} : Link).Somewhere tab rs (arrivals es ++ []) :=
    .inr ⟨_, _, _, _, by rw [append_nil, hes]; exact Link.at_start⟩
  rw [foldl_append]
  rcases hstart.run hwf with hb | ⟨done, todo, last, offset, hat⟩
  · exact (hb.calls n).settled
  · refine hat.settled_calls hwf (le_trans ?_ hn)
    have hcoming := congrArg List.length hat.coming
    have hsplit := congrArg (fun rs => (replyBytes tab rs).length) hat.split
    simp only [replyBytes, flatMap_append, length_append, length_drop,
      length_nil] at hcoming hsplit ⊢
    omega

/-! ### The event loop -/

/-- The link has caught up and waits for more. -/
def Link.Waiting (tab : List SlinkRplDef) (rs : List SlinkReply) (l : Link)
    (future : List UInt8) : Prop :=
  ∃ done todo last offset, l.At tab rs future done todo last offset ∧ l.pipe = [] ∧
    torn tab todo offset = false ∧ (l.watched = true ∨ todo = [])

/-- The pipe is no longer watched though replies are missing. -/
structure Link.Lost (rs : List SlinkReply) (l : Link) : Prop where
  watched : l.watched = false
  short : ∃ done todo, rs = done ++ todo ∧ todo ≠ [] ∧ l.handled = done.map SlinkReply.handlerCall

theorem torn_append (p : Nat) :
    torn tab (done ++ todo) ((replyBytes tab done).length + p) = torn tab todo p := by
  induction done with
  | nil => simp [replyBytes]
  | cons r done ih =>
    have hle : ¬ (replyBytes tab (r :: done)).length + p < (r.bytes tab).length := by
      simp only [replyBytes, flatMap_cons, length_append]
      omega
    rw [cons_append, torn, if_neg hle, ← ih]
    congr 1
    simp only [replyBytes, flatMap_cons, length_append]
    omega

theorem Link.At.offset_le (h : l.At tab rs future done todo last offset) :
    offset ≤ (replyBytes tab todo).length := by
  cases todo with
  | nil =>
    by_contra hne
    obtain ⟨r, rest, heq, -⟩ := h.inside (by omega)
    cases heq
  | cons r rest =>
    have := h.reading.2
    simp only [replyBytes, flatMap_cons, length_append]
    omega

theorem Link.At.torn_eq (h : l.At tab rs future done todo last offset) (hpipe : l.pipe = []) :
    torn tab rs ((replyBytes tab rs).length - future.length) = torn tab todo offset := by
  have hcoming := congrArg List.length h.coming
  have hle := h.offset_le
  have hplace : (replyBytes tab rs).length - future.length =
      (replyBytes tab done).length + offset := by
    have hsplit := congrArg (fun rs => (replyBytes tab rs).length) h.split
    simp only [hpipe, replyBytes, flatMap_append, length_append, length_drop,
      length_nil] at hcoming hsplit hle ⊢
    omega
  rw [hplace, h.split, torn_append]

theorem Link.At.pipe_of_nil (h : l.At tab rs future done [] last offset) : l.pipe = [] := by
  have hcoming := h.coming
  rw [replyBytes, flatMap_nil, drop_nil] at hcoming
  exact (List.append_eq_nil_iff.mp hcoming).1

theorem Link.select_idle (hpipe : l.pipe = []) : l.select tab = l := by
  simp [Link.select, hpipe]

theorem Link.Behind.drain (h : l.Behind tab rs) (n : Nat) : (l.drain tab n).Behind tab rs := by
  induction n generalizing l with
  | zero => exact h
  | succ n ih =>
    apply ih
    unfold Link.select
    split
    · exact Link.Behind.call ⟨h.stuck, h.stale, h.short⟩
    · exact h

theorem Link.Lost.drain (h : l.Lost rs) (n : Nat) : l.drain tab n = l := by
  induction n with
  | zero => rfl
  | succ n ih => rw [Link.drain, Link.select, h.watched, Bool.false_and, if_neg Bool.false_ne_true,
    ih]

theorem Link.At.drain (hwf : WellFormedReplies tab rs) {n : Nat}
    (h : l.At tab rs future done todo last offset) (htorn : torn tab todo offset = false)
    (hwatched : l.watched = true ∨ todo = []) (hn : l.pipe.length ≤ n) :
    (l.drain tab n).Waiting tab rs future ∨ (l.drain tab n).Behind tab rs ∨
      (l.drain tab n).Lost rs ∧
        torn tab rs ((replyBytes tab rs).length - future.length) = true := by
  induction n generalizing l done todo last offset with
  | zero =>
    exact .inl ⟨_, _, _, _, h, List.length_eq_zero_iff.mp (Nat.le_zero.mp hn), htorn, hwatched⟩
  | succ n ih =>
    rw [Link.drain]
    by_cases hpipe : l.pipe = []
    · rw [Link.select_idle hpipe]
      exact ih h htorn hwatched (by simp [hpipe])
    have hne : todo ≠ [] := fun hnil => hpipe (hnil ▸ h).pipe_of_nil
    have hlive : l.dead = false := by
      by_contra hdead
      exact hne (h.alive (by simpa using hdead))
    have hselect : l.select tab = ({ l with watched := false } : Link).call tab := by
      simp [Link.select, hwatched.resolve_right hne, hpipe]
    have hstart : ({ l with watched := false } : Link).At tab rs future done todo last offset :=
      ⟨h.split, h.handled, h.stale, h.coming, h.alive, h.start, h.inside⟩
    rw [hselect]
    rcases hstart.call hwf hlive hpipe with hb | ⟨done', todo', last', offset', hat, hless, hgo,
        hstop⟩
    · exact .inr (.inl (hb.drain n))
    · cases htorn' : torn tab todo' offset' with
      | false => exact ih hat htorn' (hgo htorn') (Nat.le_of_lt_succ (hless.trans_le hn))
      | true =>
        obtain ⟨hunwatched, hempty⟩ := hstop htorn'
        have hlost : (({ l with watched := false } : Link).call tab).Lost rs :=
          ⟨hunwatched, done', todo', hat.split, fun hnil => by simp [hnil, torn] at htorn',
            hat.handled⟩
        rw [hlost.drain]
        exact .inr (.inr ⟨hlost, (hat.torn_eq hempty).trans htorn'⟩)

theorem Link.Behind.loop (h : l.Behind tab rs) (chunks : List (List UInt8)) :
    (l.loop tab chunks).Behind tab rs := by
  induction chunks generalizing l with
  | nil => exact h
  | cons chunk chunks ih => exact ih (h.arrive.drain _)

theorem Link.Lost.loop (h : l.Lost rs) (chunks : List (List UInt8)) : (l.loop tab chunks).Lost
    rs := by
  induction chunks generalizing l with
  | nil => exact h
  | cons chunk chunks ih =>
    have harrive : (l.arrive chunk).Lost rs := ⟨h.watched, h.short⟩
    apply ih
    change ((l.arrive chunk).drain tab (l.arrive chunk).pipe.length).Lost rs
    rw [harrive.drain]
    exact harrive

theorem Link.Waiting.loop (hwf : WellFormedReplies tab rs) {chunks : List (List UInt8)}
    (h : l.Waiting tab rs chunks.flatten) :
    (l.loop tab chunks).handled = rs.map SlinkReply.handlerCall ↔
      noStale tab 0 rs = true ∧ ∀ pre post, chunks = pre ++ post →
        torn tab rs ((replyBytes tab rs).length - post.flatten.length) = false := by
  induction chunks generalizing l with
  | nil =>
    obtain ⟨done, todo, last, offset, hat, hpipe, htorn, -⟩ := h
    have hplace := (hat.torn_eq hpipe).trans htorn
    obtain rfl := hat.finished hpipe
    refine ⟨fun hall => ⟨hat.settled.mp hall, fun pre post hsplit => ?_⟩,
      fun hgood => hat.settled.mpr hgood.1⟩
    obtain ⟨-, rfl⟩ := List.append_eq_nil_iff.mp hsplit.symm
    exact hplace
  | cons chunk chunks ih =>
    obtain ⟨done, todo, last, offset, hat, hpipe, htorn, hwatched⟩ := h
    have hhere := (hat.torn_eq hpipe).trans htorn
    rw [flatten_cons] at hat
    have hnext := hat.arrive.drain hwf htorn hwatched (Nat.le_refl _)
    change (Link.loop tab ((l.arrive chunk).drain tab (l.arrive chunk).pipe.length)
      chunks).handled =
      _ ↔ _
    generalize (l.arrive chunk).drain tab (l.arrive chunk).pipe.length = m at hnext ⊢
    rcases hnext with hwait | hbehind | ⟨hlost, hthere⟩
    · rw [ih hwait]
      refine and_congr_right fun _ => ⟨fun hall pre post hsplit => ?_, fun hall pre post hsplit =>
        hall (chunk :: pre) post (by rw [hsplit, cons_append])⟩
      rcases pre with _ | ⟨c, pre⟩
      · rw [nil_append] at hsplit
        rw [← hsplit]
        exact hhere
      · exact hall pre post (List.cons.inj hsplit).2
    · refine ⟨fun hall => absurd hall (handled_short (hbehind.loop chunks).short), fun hgood =>
        ?_⟩
      rw [hbehind.stale] at hgood
      exact absurd hgood.1 Bool.false_ne_true
    · refine ⟨fun hall => absurd hall (handled_short (hlost.loop chunks).short), fun hgood => ?_⟩
      rw [hgood.2 [chunk] chunks rfl] at hthere
      cases hthere

theorem event_loop (hwf : WellFormedReplies tab rs) {chunks : List (List UInt8)}
    (hchunks : chunks.flatten = replyBytes tab rs) :
    (({} : Link).loop tab chunks).handled = rs.map SlinkReply.handlerCall ↔
      noStale tab 0 rs = true ∧
        ∀ pre post, chunks = pre ++ post → torn tab rs pre.flatten.length = false := by
  have hstart : ({} : Link).Waiting tab rs chunks.flatten :=
    ⟨_, _, _, _, hchunks ▸ Link.at_start, rfl, torn_zero, .inl rfl⟩
  have hplace : ∀ pre post, chunks = pre ++ post →
      (replyBytes tab rs).length - post.flatten.length = pre.flatten.length := by
    intro pre post hsplit
    have := congrArg (fun cs => cs.flatten.length) hsplit
    simp only [hchunks, flatten_append, length_append] at this
    omega
  rw [hstart.loop hwf]
  refine and_congr_right fun _ => forall_congr' fun pre => forall_congr' fun post =>
    forall_congr' fun hsplit => ?_
  rw [hplace pre post hsplit]

/-- The replies of a servlink are handled exactly as they were sent, by
successive calls that come at any time while the bytes arrive in any pieces,
just when no reply without data follows one whose data left its length behind;
and by the event loop, which catches up after each chunk of bytes, just when
besides no chunk ends inside the length or the data of a reply. -/
theorem replies_decoded (hwf : WellFormedReplies tab rs) :
    (∀ es n, arrivals es = replyBytes tab rs → (replyBytes tab rs).length ≤ n →
      (((es ++ List.replicate n PipeEvent.call).foldl (Link.step tab) {}).handled =
        rs.map SlinkReply.handlerCall ↔ noStale tab 0 rs = true)) ∧
    ∀ chunks : List (List UInt8), chunks.flatten = replyBytes tab rs →
      ((({} : Link).loop tab chunks).handled = rs.map SlinkReply.handlerCall ↔
        noStale tab 0 rs = true ∧
          ∀ pre post, chunks = pre ++ post → torn tab rs pre.flatten.length = false) :=
  ⟨fun _ _ hes hn => successive_calls hwf hes hn, fun _ hchunks => event_loop hwf hchunks⟩

theorem wellFormed_single (hnonzero : r.command ≠ 0) (hknown : (replydef tab r.command).isSome =
    true)
    (hdata : hasData tab r.command = false → r.data = []) (hshort : r.data.length < 65536) :
    WellFormedReplies tab [r] where
  each s hs := by
    obtain rfl := List.mem_singleton.mp hs
    exact ⟨hnonzero, hknown, hdata, hshort⟩
  last := nofun

/-- The numbers of a compressed link, read in the middle of the length. -/
theorem replies_decoded_zipstats :
    ((([.arrive [2, 0], .call, .arrive [1, 7]] : List PipeEvent) ++
      List.replicate 4 PipeEvent.call).foldl (Link.step slinkrpltab) {}).handled =
        [⟨2, 1, some [7]⟩] := by
  have hwf : WellFormedReplies slinkrpltab [⟨2, [7]⟩] :=
    wellFormed_single (by decide) (by decide) (by decide) (by decide)
  exact ((replies_decoded hwf).1 _ 4 (by decide) (by decide)).mpr (by decide)

/-- A table with a command that has no data besides the numbers. -/
def dataAndPlain : List SlinkRplDef :=
  [{ replyid := 2, data := true, exits := false }, { replyid := 3, data := false, exits := false }]

/-- The event loop loses the numbers of a compressed link when the pipe splits
them; and successive calls stop at a reply without data behind one with data. -/
theorem replies_lost :
    (let sent : List SlinkReply := [⟨2, List.replicate 16 0⟩]
     let bytes := replyBytes slinkrpltab sent
     WellFormedReplies slinkrpltab sent ∧
       ((({} : Link).loop slinkrpltab [bytes.take 10, bytes.drop 10]).handled ≠
         sent.map SlinkReply.handlerCall)) ∧
    (let sent : List SlinkReply := [⟨2, [7]⟩, ⟨3, []⟩]
     WellFormedReplies dataAndPlain sent ∧
       (((PipeEvent.arrive (replyBytes dataAndPlain sent) :: List.replicate 8 .call).foldl
         (Link.step dataAndPlain) {}).handled ≠ sent.map SlinkReply.handlerCall)) := by
  refine ⟨⟨wellFormed_single (by decide) (by decide) (by decide) (by decide), by decide⟩,
    ⟨⟨fun r hr => ?_, by decide⟩, by decide⟩⟩
  rcases List.mem_cons.mp hr with rfl | hr
  · exact ⟨by decide, by decide, by decide, by decide⟩
  · obtain rfl := List.mem_singleton.mp hr
    exact ⟨by decide, by decide, by decide, by decide⟩

end Ircd
