import Ircd.Dbuf
import Ircd.Servlink

/-!
Commands on the control pipe of a servlink: `start_io`, which queues them, and
`read_ctrl` of the servlink with the `select` loop that calls it.

- `length_startIo`: the length that `start_io` allocates is the length of what it writes.
- `commands_decoded`: `read_ctrl` decodes a stream of commands for every division of it into
  chunks that does not split the two bytes of a length, and, where the length has no high
  byte, only for those.
-/

namespace Ircd

open List

/-! ### `start_io` -/

/-- `SLINKCMD_INJECT_RECVQ`. -/
def SLINKCMD_INJECT_RECVQ : UInt8 := 10

/-- `SLINKCMD_INJECT_SENDQ`. -/
def SLINKCMD_INJECT_SENDQ : UInt8 := 11

/-- `SLINKCMD_INIT`. -/
def SLINKCMD_INIT : UInt8 := 12

/-- A cipher of `CipherTable` that the link uses in one direction, and its key. -/
structure LinkCipher where
  keylen : Nat
  cipherid : UInt8
  key : List UInt8
  keylen_lt : keylen < 256
  length_key : key.length = keylen

/-- What `start_io` reads of a server: `zip` and `enc` are `CAP_ZIP` and `CAP_ENC`, the latter
with the ciphers of the two directions, in first. -/
structure SlinkServer where
  zip : Bool
  compressionLevel : UInt8
  enc : Option (LinkCipher × LinkCipher)
  recvq : DbufQueue
  sendq : DbufQueue

namespace SlinkServer

/-- `alloclen`. -/
def alloclen (s : SlinkServer) : Nat :=
  1 + (if s.zip then 6 else 0) +
    (match s.enc with
      | none => 0
      | some (inCipher, outCipher) => 16 + inCipher.keylen + outCipher.keylen) +
    s.recvq.totalSize + s.recvq.blocks.length * 3 + s.sendq.totalSize + s.sendq.blocks.length * 3

/-- The bytes of a block, as `memcpy` takes them. -/
def blockBytes (b : DbufBlock) : List UInt8 := b.data.map fun c => UInt8.ofNat c.toNat

/-- One block of a queue behind its command and its length. -/
def injectBlock (command : UInt8) (b : DbufBlock) : List UInt8 :=
  command :: UInt8.ofNat (b.size >>> 8) :: UInt8.ofNat (b.size &&& 0xff) :: blockBytes b

/-- `start_io`: what it writes to the buffer. -/
def startIo (s : SlinkServer) : List UInt8 :=
  (if s.zip then [1, 0, 1, s.compressionLevel, 3, 2] else []) ++
    (match s.enc with
      | none => []
      | some (inCipher, outCipher) =>
        [4, 0, 1, inCipher.cipherid] ++ (5 :: 0 :: UInt8.ofNat inCipher.keylen :: inCipher.key) ++
          [7, 0, 1, outCipher.cipherid] ++ (8 :: 0 :: UInt8.ofNat outCipher.keylen :: outCipher.key)
            ++
          [6, 9]) ++
    s.recvq.blocks.flatMap (injectBlock SLINKCMD_INJECT_RECVQ) ++
    s.sendq.blocks.flatMap (injectBlock SLINKCMD_INJECT_SENDQ) ++ [SLINKCMD_INIT]

theorem length_injectBlocks (command : UInt8) (blocks : List DbufBlock) :
    (blocks.flatMap (injectBlock command)).length =
      (blocks.flatMap DbufBlock.data).length + blocks.length * 3 := by
  induction blocks with
  | nil => rfl
  | cons b blocks ih =>
    simp only [flatMap_cons, length_append, length_cons, ih, injectBlock,
      blockBytes,
      length_map]
    omega

theorem length_startIo (s : SlinkServer) (hrecvq : s.recvq.Counted) (hsendq : s.sendq.Counted) :
    s.startIo.length = s.alloclen := by
  have hzip : (if s.zip then [1, 0, 1, s.compressionLevel, 3, 2] else []).length =
      if s.zip then 6 else 0 := by
    split <;> rfl
  have hrecv : s.recvq.totalSize = (s.recvq.blocks.flatMap DbufBlock.data).length := hrecvq
  have hsend : s.sendq.totalSize = (s.sendq.blocks.flatMap DbufBlock.data).length := hsendq
  rw [startIo, alloclen, hrecv, hsend]
  simp only [length_append, hzip, length_injectBlocks, length_singleton]
  cases s.enc with
  | none =>
    simp only [length_nil]
    omega
  | some ciphers =>
    have hin := ciphers.1.length_key
    have hout := ciphers.2.length_key
    simp only [length_append, length_cons, length_nil, hin, hout]
    omega

end SlinkServer

/-! ### `read_ctrl` -/

/-- A line of `command_table`: the command and whether data follows it. -/
structure CommandDef where
  commandid : UInt8
  data : Bool
  deriving DecidableEq, Repr

/-- `command_table`. -/
def commandTable : List CommandDef :=
  [⟨1, true⟩, ⟨2, false⟩, ⟨3, false⟩, ⟨4, true⟩, ⟨5, true⟩, ⟨6, false⟩, ⟨7, true⟩, ⟨8, true⟩,
    ⟨9, false⟩, ⟨10, true⟩, ⟨11, true⟩, ⟨12, false⟩, ⟨13, false⟩]

def cdef (command : UInt8) : Option CommandDef := commandTable.find? fun d => d.commandid == command

/-- `struct ctrl_command`. The buffer is the part of it that is filled; `none` is `NULL`. -/
structure CtrlCommand where
  command : UInt8 := 0
  datalen : Nat := 0
  gotdatalen : Nat := 0
  readdata : Nat := 0
  data : Option (List UInt8) := none
  deriving DecidableEq, Repr

/-- Bytes that the pipe gets together once it is empty: before the next read of a running
`read_ctrl`, or later, while `select` waits. -/
structure Chunk where
  early : Bool
  bytes : List UInt8
  ne : bytes ≠ []
  deriving DecidableEq, Repr

/-- The servlink: the bytes in its control pipe and those to come, the static `cmd` of
`read_ctrl`, whether it has ended with an error, and the handler calls so far. -/
structure Ctrl where
  pipe : List UInt8 := []
  coming : List Chunk := []
  cmd : CtrlCommand := {}
  exited : Bool := false
  handled : List HandlerCall := []
  deriving DecidableEq, Repr

namespace Ctrl

/-- `send_error` does not return. -/
def sendError (l : Ctrl) : Ctrl := { l with exited := true }

/-- The pipe when `read` looks at it. -/
def refill (l : Ctrl) : Ctrl :=
  match l.pipe, l.coming with
  | [], ⟨true, bytes, _⟩ :: coming => { l with pipe := bytes, coming := coming }
  | _, _ => l

/-- `read` of up to `n` bytes; nothing is `EAGAIN`. -/
def read (l : Ctrl) (n : Nat) : List UInt8 × Ctrl :=
  (l.refill.pipe.take n, { l.refill with pipe := l.refill.pipe.drop n })

/-- The first read: the command. An error is a `return`. -/
def readCommand (l : Ctrl) : Except Ctrl Ctrl :=
  if l.cmd.command = 0 then
    match ({ l with cmd := {} } : Ctrl).read 1 with
    | ([], l) => .error l
    | (c :: _, l) => .ok { l with cmd := { l.cmd with command := c } }
  else .ok l

/-- What the bytes of a length do to the command. -/
def storeLength (cmd : CtrlCommand) (bytes : List UInt8) : CtrlCommand :=
  let (cmd, bytes) :=
    match cmd.gotdatalen, bytes with
    | 0, b :: bytes => ({ cmd with datalen := b.toNat <<< 8, gotdatalen := 1 }, bytes)
    | _, bytes => (cmd, bytes)
  match cmd.gotdatalen, bytes with
  | 1, b :: _ =>
    let datalen := cmd.datalen ||| b.toNat
    { cmd with
      datalen := datalen, gotdatalen := 2, data := if 0 < datalen then some [] else cmd.data }
  | _, _ => cmd

/-- The second read: the length, if the table says that data follows. -/
def readLength (l : Ctrl) : Except Ctrl Ctrl :=
  match cdef l.cmd.command with
  | none => .error l.sendError
  | some d =>
    if d.data = true ∧ l.cmd.gotdatalen < 2 then
      match l.read (2 - l.cmd.gotdatalen) with
      | ([], l) => .error l
      | (bytes, l) => .ok { l with cmd := storeLength l.cmd bytes }
    else .ok l

/-- The third read: the data. A read into `NULL` is fatal. -/
def readData (l : Ctrl) : Except Ctrl Ctrl :=
  if l.cmd.readdata < l.cmd.datalen then
    match l.read (l.cmd.datalen - l.cmd.readdata) with
    | ([], l) => .error l
    | (bytes, l) =>
      match l.cmd.data with
      | none => .error l.sendError
      | some data =>
        let l :=
          { l with
            cmd := { l.cmd with readdata := l.cmd.readdata + bytes.length, data := some (data ++ bytes) } }
        if l.cmd.readdata < l.cmd.datalen then .error l else .ok l
  else .ok l

/-- The call of the handler, after which the next command can be read. -/
def dispatch (l : Ctrl) : Ctrl :=
  { l with
    handled := l.handled ++ [⟨l.cmd.command, l.cmd.datalen, l.cmd.data⟩]
    cmd := { l.cmd with command := 0 } }

/-- `read_ctrl`. -/
def call (l : Ctrl) : Ctrl :=
  match readCommand l >>= readLength >>= readData with
  | .error l => l
  | .ok l => dispatch l

/-- A turn of `io_loop`: `select` waits until the pipe has bytes. -/
def turn (l : Ctrl) : Ctrl :=
  if l.exited then l
  else
    match l.pipe, l.coming with
    | [], [] => l
    | [], c :: coming => call { l with pipe := c.bytes, coming := coming }
    | _, _ => call l

/-- `io_loop`. -/
def loop : Nat → Ctrl → Ctrl
  | 0, l => l
  | n + 1, l => loop n l.turn

end Ctrl

/-! ### The commands of a stream -/

/-- A command, with its data where it has any. -/
structure SlinkCommand where
  command : UInt8
  data : List UInt8 := []
  deriving DecidableEq, Repr

def chunkBytes (chunks : List Chunk) : List UInt8 := chunks.flatMap Chunk.bytes

namespace SlinkCommand

def carriesData (command : UInt8) : Bool := ((cdef command).map CommandDef.data).getD false

def bytes (r : SlinkCommand) : List UInt8 :=
  if carriesData r.command then
    r.command :: UInt8.ofNat (r.data.length / 256) :: UInt8.ofNat (r.data.length % 256) :: r.data
  else [r.command]

/-- The call a command should lead to. -/
def handlerCall (r : SlinkCommand) : HandlerCall :=
  ⟨r.command, r.data.length, if r.data = [] then none else some r.data⟩

/-- A command of the table, with data that fits the length. -/
structure WellFormed (r : SlinkCommand) : Prop where
  known : (cdef r.command).isSome = true
  noData : carriesData r.command = false → r.data = []
  short : r.data.length < 65536

def stream (rs : List SlinkCommand) : List UInt8 := rs.flatMap bytes

/-- The chunk that comes behind the first `p` bytes tears a length: they end between its two
bytes, and the high one is zero or the chunk comes before the next read. -/
def tears : List SlinkCommand → Nat → Bool → Bool
  | [], _, _ => false
  | r :: rs, p, early =>
    if p < r.bytes.length then carriesData r.command && p == 2 &&
      (decide (r.data.length < 256) || early)
    else tears rs (p - r.bytes.length) early

/-- The record after the first `offset` bytes of a command. -/
def record (r : SlinkCommand) : Nat → CtrlCommand
  | 0 => {}
  | 1 => { command := r.command }
  | 2 => { command := r.command, datalen := (r.data.length / 256) <<< 8, gotdatalen := 1 }
  | k + 3 =>
    { command := r.command, datalen := r.data.length, gotdatalen := 2, readdata := k
      data := if r.data = [] then none else some (r.data.take k) }

theorem command_ne_zero {r : SlinkCommand} (h : r.WellFormed) : r.command ≠ 0 := by
  intro hzero
  have hknown := h.known
  rw [hzero] at hknown
  exact absurd hknown (by decide)

theorem bytes_of_carriesData {r : SlinkCommand} (h : carriesData r.command = true) : r.bytes =
    r.command :: UInt8.ofNat (r.data.length / 256) :: UInt8.ofNat (r.data.length % 256) ::
      r.data := by
  rw [bytes, if_pos h]

theorem bytes_of_noData {r : SlinkCommand} (h : carriesData r.command = false) : r.bytes =
    [r.command] := by
  rw [bytes, if_neg (by simp [h])]

theorem bytes_ne_nil (r : SlinkCommand) : r.bytes ≠ [] := by
  unfold bytes
  split <;> exact nofun

theorem stream_cons (r : SlinkCommand) (rs : List SlinkCommand) :
    stream (r :: rs) = r.bytes ++ stream rs := rfl

theorem stream_append (rs rs' : List SlinkCommand) : stream (rs ++ rs') = stream rs ++ stream rs' :=
  flatMap_append

theorem cdef_of_carriesData {command : UInt8} (h : carriesData command = true) :
    ∃ d, cdef command = some d ∧ d.data = true := by
  cases hd : cdef command with
  | none => simp [carriesData, hd] at h
  | some d => exact ⟨d, rfl, by simpa [carriesData, hd] using h⟩

theorem cdef_of_noData {r : SlinkCommand} (hwf : r.WellFormed) (h : carriesData r.command = false) :
    ∃ d, cdef r.command = some d ∧ d.data = false := by
  obtain ⟨d, hd⟩ := Option.isSome_iff_exists.mp hwf.known
  exact ⟨d, hd, by simpa [carriesData, hd] using h⟩

theorem tears_append (done todo : List SlinkCommand) (p : Nat) (early : Bool) :
    tears (done ++ todo) ((stream done).length + p) early = tears todo p early := by
  induction done with
  | nil => simp [stream]
  | cons r done ih =>
    have hle : ¬(stream (r :: done)).length + p < r.bytes.length := by
      rw [stream_cons, length_append]
      omega
    rw [cons_append, tears, if_neg hle, ← ih, stream_cons, length_append]
    congr 1
    omega

end SlinkCommand

namespace Ctrl

open SlinkCommand

/-! ### Reads -/

/-- The bytes that `read_ctrl` has not read yet. -/
def unread (l : Ctrl) : List UInt8 := l.pipe ++ chunkBytes l.coming

/-- What is left to do: bytes to read and chunks to wait for. -/
def size (l : Ctrl) : Nat := l.unread.length + l.coming.length

/-- What is left behind a call that reads as soon as the pipe has bytes. -/
def left (l : Ctrl) : Nat := if l.pipe = [] then l.size else l.size - 1

/-- A `read` of up to `n` bytes that finds some. -/
structure ReadsSome (l : Ctrl) (n : Nat) (bytes : List UInt8) (m : Ctrl) : Prop where
  result : l.read n = (bytes, m)
  nonempty : bytes ≠ []
  length_le : bytes.length ≤ n
  unread : l.unread = bytes ++ m.unread
  empty : bytes.length < n → m.pipe = []
  rest : m = { l with pipe := m.pipe, coming := m.coming }
  coming : m.coming = l.coming ∨ ∃ c, l.coming = c :: m.coming ∧ l.pipe = [] ∧ c.early = true

/-- A `read` that finds nothing, and no chunk that would still come in time. -/
structure ReadsNone (l : Ctrl) (n : Nat) : Prop where
  result : l.read n = ([], l)
  pipe : l.pipe = []
  late : ∀ c post, l.coming = c :: post → c.early = false

theorem unread_refill (l : Ctrl) : l.refill.unread = l.unread := by
  unfold refill
  split
  · rename_i hpipe hcoming
    simp [unread, chunkBytes, hpipe, hcoming]
  · rfl

theorem read_cases (l : Ctrl) {n : Nat} (hn : 0 < n) :
    l.ReadsNone n ∨ ∃ bytes m, l.ReadsSome n bytes m := by
  by_cases hempty : l.refill.pipe = []
  · have hrefill : l.refill = l := by
      unfold refill at hempty ⊢
      split
      · rename_i bytes hne coming hpipe hcoming
        simp only [hpipe, hcoming] at hempty
        exact absurd hempty hne
      · rfl
    have hpipe : l.pipe = [] := by rwa [hrefill] at hempty
    refine Or.inl ⟨?_, hpipe, ?_⟩
    · rw [read, hrefill, hpipe, take_nil, drop_nil, ← hpipe]
    · intro c post hcoming
      by_contra hearly
      obtain ⟨early, bytes, hne⟩ := c
      obtain rfl : early = true := by simpa using hearly
      rw [refill, hpipe, hcoming] at hempty
      exact hne hempty
  · refine Or.inr ⟨l.refill.pipe.take n, { l.refill with pipe := l.refill.pipe.drop n }, rfl, ?_,
      length_take_le _ _, ?_, ?_, ?_, ?_⟩
    · rw [ne_eq, take_eq_nil_iff]
      exact not_or.mpr ⟨Nat.ne_of_gt hn, hempty⟩
    · rw [← unread_refill]
      simp only [unread]
      rw [← append_assoc, take_append_drop]
    · intro hshort
      rw [length_take] at hshort
      exact drop_eq_nil_of_le (by omega)
    · unfold refill
      split <;> rfl
    · unfold refill
      split
      · rename_i bytes hne coming hpipe hcoming
        exact Or.inr ⟨_, hcoming, hpipe, rfl⟩
      · exact Or.inl rfl

theorem ReadsSome.size_lt {l m : Ctrl} {n : Nat} {bytes : List UInt8} (h : l.ReadsSome n bytes m) :
    m.size < l.size := by
  have hlen := congrArg List.length h.unread
  have hpos := List.length_pos_iff.mpr h.nonempty
  rw [length_append] at hlen
  have hcoming : m.coming.length ≤ l.coming.length := by
    rcases h.coming with heq | ⟨c, hc, -⟩
    · rw [heq]
    · rw [hc, length_cons]
      exact Nat.le_succ _
  unfold size
  omega

theorem ReadsSome.size_le {l m : Ctrl} {n : Nat} {bytes : List UInt8} (h : l.ReadsSome n bytes m) :
    m.size ≤ l.left := by
  have hlt := h.size_lt
  unfold left
  split
  · exact Nat.le_of_lt hlt
  · exact Nat.le_sub_one_of_lt hlt

theorem ReadsNone.left_eq {l : Ctrl} {n : Nat} (h : l.ReadsNone n) : l.left = l.size :=
    if_pos h.pipe

theorem left_le (l : Ctrl) : l.left ≤ l.size := by
  unfold left
  split
  · exact Nat.le_refl _
  · exact Nat.sub_le _ _

/-! ### Where a servlink is in its commands -/

/-- None of these chunks, the last of the stream, tears a length. -/
def Fine (rs : List SlinkCommand) : List Chunk → Prop
  | [] => True
  | c :: post =>
    tears rs ((stream rs).length - (chunkBytes (c :: post)).length) c.early = false ∧ Fine rs post

/-- The commands `done` are handled, and the first `offset` bytes of the next are read. Between
the bytes of a length it waits only where the high one is not zero, for a late chunk. -/
structure At (rs : List SlinkCommand) (l : Ctrl) (done todo : List SlinkCommand) (offset : Nat) :
    Prop where
  split : rs = done ++ todo
  handled : l.handled = done.map handlerCall
  unread : l.unread = (stream todo).drop offset
  live : l.exited = false
  start : offset = 0 → l.cmd.command = 0
  inside : offset ≠ 0 → ∃ r tail, todo = r :: tail ∧ carriesData r.command = true ∧
    offset < r.bytes.length ∧ l.cmd = r.record offset ∧
    (offset = 2 → 256 ≤ r.data.length ∧
      (l.pipe = [] → ∀ c post, l.coming = c :: post → c.early = false))

/-- Whatever follows, the calls will not be those that the commands should lead to: the
servlink has ended, a call was wrong, or a byte that is no command comes next. -/
def Lost (rs : List SlinkCommand) (l : Ctrl) : Prop :=
  ¬l.handled <+: rs.map handlerCall ∨
    l.handled ≠ rs.map handlerCall ∧
      (l.exited = true ∨ l.cmd.command = 0 ∧ ∃ s, l.unread = 0 :: s)

/-- What a call leads to from a servlink with these chunks to come. -/
def Outcome (rs : List SlinkCommand) (coming : List Chunk) (bound : Nat) (l : Ctrl) : Prop :=
  (∃ done todo offset, l.At rs done todo offset ∧ (Fine rs coming ↔ Fine rs l.coming) ∧
    l.size ≤ bound) ∨ l.Lost rs ∧ ¬Fine rs coming

/-- In the middle of a call: `offset` bytes of `r` are read, and they are in the record. -/
structure Mid (rs : List SlinkCommand) (l : Ctrl) (done : List SlinkCommand) (r : SlinkCommand)
    (tail : List SlinkCommand) (offset : Nat) : Prop where
  split : rs = done ++ r :: tail
  handled : l.handled = done.map handlerCall
  unread : l.unread = (stream (r :: tail)).drop offset
  live : l.exited = false
  record : l.cmd = r.record offset

variable {rs done tail : List SlinkCommand} {r : SlinkCommand} {l m : Ctrl} {coming : List Chunk}
  {bound offset : Nat}

theorem Outcome.trans (h : Outcome rs coming bound l) {coming' : List Chunk} {bound' : Nat}
    (hfine : Fine rs coming' ↔ Fine rs coming) (hle : bound ≤ bound') : Outcome rs coming' bound'
      l := by
  rcases h with ⟨done, todo, offset, hat, hiff, hsize⟩ | ⟨hlost, hnot⟩
  · exact Or.inl ⟨done, todo, offset, hat, hfine.trans hiff, hsize.trans hle⟩
  · exact Or.inr ⟨hlost, fun h => hnot (hfine.mp h)⟩

theorem tears_at (hsplit : rs = done ++ r :: tail) (hoffset : offset < r.bytes.length)
    {c : Chunk} {post : List Chunk} (hrest : chunkBytes (c :: post) = (stream (r :: tail)).drop
      offset) :
    tears rs ((stream rs).length - (chunkBytes (c :: post)).length) c.early =
      (carriesData r.command && offset == 2 && (decide (r.data.length < 256) || c.early)) := by
  have hplace : (stream rs).length - (chunkBytes (c :: post)).length = (stream done).length +
      offset := by
    rw [hrest, hsplit, stream_append, length_append, length_drop, stream_cons,
      length_append]
    omega
  rw [hplace, hsplit, tears_append, tears, if_pos hoffset]

theorem ReadsSome.fine_iff {n : Nat} {bytes : List UInt8} (h : l.ReadsSome n bytes m)
    (hplace : l.pipe = [] → ∀ c post, l.coming = c :: post → c.early = true →
      tears rs ((stream rs).length - (chunkBytes (c :: post)).length) c.early = false) :
    Fine rs l.coming ↔ Fine rs m.coming := by
  rcases h.coming with heq | ⟨c, hc, hpipe, hearly⟩
  · rw [heq]
  · rw [hc, Fine]
    exact and_iff_right (hplace hpipe c m.coming hc hearly)

theorem Mid.tears_eq (h : l.Mid rs done r tail offset) (hoffset : offset < r.bytes.length)
    (hpipe : l.pipe = []) {c : Chunk} {post : List Chunk} (hcoming : l.coming = c :: post) :
    tears rs ((stream rs).length - (chunkBytes (c :: post)).length) c.early =
      (carriesData r.command && offset == 2 && (decide (r.data.length < 256) || c.early)) := by
  refine tears_at h.split hoffset ?_
  rw [← h.unread, Ctrl.unread, hpipe, nil_append, hcoming]

theorem Mid.fine_iff (h : l.Mid rs done r tail offset) (hoffset : offset < r.bytes.length)
    (hne : offset ≠ 2) {n : Nat} {bytes : List UInt8} (hread : l.ReadsSome n bytes m) :
    Fine rs l.coming ↔ Fine rs m.coming := by
  refine hread.fine_iff fun hpipe c post hcoming _ => ?_
  rw [h.tears_eq hoffset hpipe hcoming]
  simp [hne]

theorem Mid.exists_coming (h : l.Mid rs done r tail offset) (hoffset : offset < r.bytes.length)
    (hpipe : l.pipe = []) : ∃ c post, l.coming = c :: post := by
  cases hcoming : l.coming with
  | nil =>
    have hunread := congrArg List.length h.unread
    rw [Ctrl.unread, hpipe, hcoming, length_drop, stream_cons, length_append] at hunread
    simp [chunkBytes] at hunread
    omega
  | cons c post => exact ⟨c, post, rfl⟩

/-! ### The stages of a call -/

def fromData (l : Ctrl) : Ctrl :=
  match readData l with
  | .error l => l
  | .ok l => dispatch l

def fromLength (l : Ctrl) : Ctrl :=
  match readLength l with
  | .error l => l
  | .ok l => fromData l

theorem call_of_ok (h : readCommand l = .ok m) : l.call = m.fromLength := by
  simp only [call, h, fromLength]
  change (match readLength m >>= readData with | .error l => l | .ok l => dispatch l) = _
  cases readLength m with
  | error l => rfl
  | ok l => rfl

theorem at_dispatch (hsplit : rs = done ++ r :: tail) (hhandled : l.handled = done.map handlerCall)
    (hunread : l.unread = stream tail) (hlive : l.exited = false)
    (hcall : HandlerCall.mk l.cmd.command l.cmd.datalen l.cmd.data = r.handlerCall) :
    l.dispatch.At rs (done ++ [r]) tail 0 where
  split := by rw [hsplit, append_cons]
  handled := by rw [dispatch, hhandled, hcall, map_append, map_singleton]
  unread := hunread
  live := hlive
  start _ := rfl
  inside h := absurd rfl h

theorem stream_drop_length (hdata : carriesData r.command = true) (k : Nat) (hk : k ≤ r.data.length)
    :
    (stream (r :: tail)).drop (k + 3) = r.data.drop k ++ stream tail := by
  rw [stream_cons, bytes_of_carriesData hdata, cons_append, cons_append, cons_append,
    drop_succ_cons, drop_succ_cons, drop_succ_cons, drop_append_of_le_length hk]

theorem length_bytes_of_carriesData (hdata : carriesData r.command = true) :
    r.bytes.length = r.data.length + 3 := by
  rw [bytes_of_carriesData hdata]
  rfl

theorem Mid.noData (h : l.Mid rs done r tail 3) (hdata : carriesData r.command = true)
    (hempty : r.data = []) : Outcome rs l.coming l.size l.fromData := by
  have hcmd := h.record
  have hread : l.readData = .ok l := by
    rw [readData, if_neg]
    simp [hcmd, SlinkCommand.record, hempty]
  rw [fromData, hread]
  refine Or.inl ⟨_, _, _, at_dispatch h.split h.handled ?_ h.live ?_, Iff.rfl, Nat.le_refl _⟩
  · rw [h.unread, stream_drop_length hdata 0 (Nat.zero_le _), hempty, drop_nil,
      nil_append]
  · simp [hcmd, SlinkCommand.record, handlerCall, hempty]

theorem Mid.someData {k : Nat} (h : l.Mid rs done r tail (k + 3))
    (hdata : carriesData r.command = true)
    (hlt : k < r.data.length) : Outcome rs l.coming l.left l.fromData := by
  have hcmd := h.record
  have hk := Nat.le_of_lt hlt
  have hne : r.data ≠ [] := by
    intro hempty
    simp [hempty] at hlt
  have hmore : l.cmd.readdata < l.cmd.datalen := by
    rw [hcmd]
    exact hlt
  have hasked : l.cmd.datalen - l.cmd.readdata = r.data.length - k := by
    rw [hcmd]
    rfl
  have hinside : k + 3 < r.bytes.length := by
    rw [length_bytes_of_carriesData hdata]
    omega
  rcases l.read_cases (n := r.data.length - k) (by omega) with hnone | ⟨bytes, m, hsome⟩
  · have hread : l.readData = .error l := by
      rw [readData, if_pos hmore, hasked, hnone.result]
    rw [fromData, hread]
    exact Or.inl ⟨done, r :: tail, k + 3, ⟨h.split, h.handled, h.unread, h.live, nofun,
      fun _ => ⟨r, tail, rfl, hdata, hinside, hcmd, nofun⟩⟩, Iff.rfl, hnone.left_eq ▸ Nat.le_refl _⟩
  · have hunread := h.unread
    rw [hsome.unread, stream_drop_length hdata k hk] at hunread
    have hlen : bytes.length ≤ (r.data.drop k).length := by
      rw [length_drop]
      exact hsome.length_le
    have hbytes : bytes = (r.data.drop k).take bytes.length := by
      have := congrArg (List.take bytes.length) hunread
      rwa [take_left, take_append_of_le_length hlen] at this
    have hbehind : m.unread = r.data.drop (k + bytes.length) ++ stream tail := by
      have := congrArg (List.drop bytes.length) hunread
      rwa [drop_left, drop_append_of_le_length hlen, drop_drop] at this
    have hfilled : some (r.data.take k ++ bytes) = some (r.data.take (k + bytes.length)) := by
      rw [take_add, ← hbytes]
    have hmcmd : m.cmd = r.record (k + 3) := by rw [hsome.rest, hcmd]
    have hmdata : m.cmd.data = some (r.data.take k) := by
      rw [hmcmd, SlinkCommand.record, if_neg hne]
    have hfine : Fine rs l.coming ↔ Fine rs m.coming := h.fine_iff hinside (by omega) hsome
    have hmhandled : m.handled = done.map handlerCall := by
      rw [hsome.rest]
      exact h.handled
    have hmlive : m.exited = false := by
      rw [hsome.rest]
      exact h.live
    set m' : Ctrl :=
      { m with
        cmd := { m.cmd with readdata := m.cmd.readdata + bytes.length, data := some (r.data.take k ++ bytes) } }
      with hm'
    have hstored : m'.cmd = r.record (k + bytes.length + 3) := by
      rw [hm', hmcmd]
      simp only [SlinkCommand.record, if_neg hne, hfilled]
    have hread : l.readData = if m'.cmd.readdata < m'.cmd.datalen then .error m' else .ok m' := by
      rw [readData, if_pos hmore, hasked, hsome.result]
      obtain ⟨b, bs, hb⟩ := exists_cons_of_ne_nil hsome.nonempty
      subst hb
      simp only [hmdata]
      rfl
    have hsize : m'.size ≤ l.left := hsome.size_le
    rw [fromData, hread]
    by_cases hall : bytes.length = r.data.length - k
    · have hk' : k + bytes.length = r.data.length := by omega
      rw [if_neg]
      · refine Or.inl ⟨_, _, _, at_dispatch h.split hmhandled ?_ hmlive ?_, hfine, hsize⟩
        · change m.unread = _
          rw [hbehind, hk', drop_length, nil_append]
        · rw [hstored, hk']
          simp [SlinkCommand.record, handlerCall]
      · rw [hstored, hk']
        exact Nat.lt_irrefl _
    · have hpart : k + bytes.length < r.data.length := by
        have := hsome.length_le
        omega
      rw [if_pos]
      · refine Or.inl ⟨done, r :: tail, k + bytes.length + 3,
          ⟨h.split, hmhandled, ?_, hmlive, nofun,
          fun _ => ⟨r, tail, rfl, hdata, ?_, hstored, fun h => by omega⟩⟩, hfine, hsize⟩
        · change m.unread = _
          rw [hbehind, stream_drop_length hdata _ (Nat.le_of_lt hpart)]
        · rw [length_bytes_of_carriesData hdata]
          omega
      · rw [hstored]
        exact hpart

theorem Mid.data (h : l.Mid rs done r tail 3) (hdata : carriesData r.command = true) :
    Outcome rs l.coming l.size l.fromData := by
  by_cases hempty : r.data = []
  · exact h.noData hdata hempty
  · have hpos := List.length_pos_iff.mpr hempty
    exact (Mid.someData (k := 0) h hdata hpos).trans Iff.rfl l.left_le

theorem storeLength_high (r : SlinkCommand) (hshort : r.data.length < 65536) :
    storeLength (r.record 1) [UInt8.ofNat (r.data.length / 256)] = r.record 2 := by
  simp only [storeLength, SlinkCommand.record, (length_bytes hshort).1]

theorem storeLength_low (r : SlinkCommand) (hshort : r.data.length < 65536) :
    storeLength (r.record 2) [UInt8.ofNat (r.data.length % 256)] = r.record 3 := by
  obtain ⟨hhigh, hboth⟩ := length_bytes hshort
  rw [hhigh] at hboth
  simp only [storeLength, SlinkCommand.record, hboth, take_zero, length_pos_iff]
  by_cases hempty : r.data = [] <;> simp [hempty]

theorem storeLength_both (r : SlinkCommand) (hshort : r.data.length < 65536) :
    storeLength (r.record 1) [UInt8.ofNat (r.data.length / 256),
      UInt8.ofNat (r.data.length % 256)] =
      r.record 3 := by
  obtain ⟨-, hboth⟩ := length_bytes hshort
  simp only [storeLength, SlinkCommand.record, hboth, take_zero, length_pos_iff]
  by_cases hempty : r.data = [] <;> simp [hempty]

theorem stream_drop_one (hdata : carriesData r.command = true) : (stream (r :: tail)).drop 1 =
    UInt8.ofNat (r.data.length / 256) :: UInt8.ofNat (r.data.length % 256) ::
      (r.data ++ stream tail) := by
  rw [stream_cons, bytes_of_carriesData hdata]
  rfl

theorem record_command {offset : Nat} (h : 0 < offset) : (r.record offset).command = r.command := by
  rcases offset with _ | _ | _ | k
  · exact absurd h (Nat.lt_irrefl 0)
  all_goals rfl

theorem readLength_of (h : l.Mid rs done r tail offset) (hdata : carriesData r.command = true)
    (hpos : 0 < offset) (hless : l.cmd.gotdatalen < 2) : readLength l =
      match l.read (2 - l.cmd.gotdatalen) with
      | ([], l) => .error l
      | (bytes, l) => .ok { l with cmd := storeLength l.cmd bytes } := by
  obtain ⟨d, hd, hflag⟩ := cdef_of_carriesData hdata
  have hcommand : cdef l.cmd.command = some d := by rw [h.record, record_command hpos, hd]
  rw [readLength, hcommand]
  exact if_pos ⟨hflag, hless⟩

theorem readLength_done {k : Nat} (h : l.Mid rs done r tail (k + 3))
    (hdata : carriesData r.command = true) : l.fromLength = l.fromData := by
  obtain ⟨d, hd, -⟩ := cdef_of_carriesData hdata
  have hcommand : cdef l.cmd.command = some d := by rw [h.record, record_command (Nat.succ_pos _),
      hd]
  have hread : readLength l = .ok l := by
    rw [readLength, hcommand]
    refine if_neg ?_
    rw [h.record]
    exact fun hless => absurd hless.2 (Nat.lt_irrefl 2)
  rw [fromLength, hread]

theorem handled_ne (hsplit : rs = done ++ tail) (htail : tail ≠ [])
    (hhandled : l.handled = done.map handlerCall) : l.handled ≠ rs.map handlerCall := by
  intro heq
  rw [hhandled, hsplit, map_append] at heq
  exact htail (List.map_eq_nil_iff.mp (List.self_eq_append_right.mp heq))

theorem Mid.read {n : Nat} {bytes : List UInt8} (h : l.Mid rs done r tail offset)
    (hread : l.ReadsSome n bytes m) {offset' : Nat} (hoffset : offset' = offset + bytes.length)
    {cmd : CtrlCommand} (hcmd : cmd = r.record offset') :
    ({ m with cmd := cmd } : Ctrl).Mid rs done r tail offset' := by
  refine ⟨h.split, ?_, ?_, ?_, hcmd⟩
  · rw [hread.rest]
    exact h.handled
  · have hunread := congrArg (List.drop bytes.length) (hread.unread.symm.trans h.unread)
    rw [drop_left, drop_drop] at hunread
    rw [hoffset]
    exact hunread
  · rw [hread.rest]
    exact h.live

theorem Mid.waits {n : Nat} (h : l.Mid rs done r tail offset) (hdata : carriesData r.command = true)
    (hinside : offset < r.bytes.length) (hpos : offset ≠ 0) (hnone : l.ReadsNone n)
    (hhigh : offset = 2 → 256 ≤ r.data.length) (hle : l.size ≤ bound) :
    Outcome rs l.coming bound l := by
  refine Or.inl ⟨done, r :: tail, offset, ?_, Iff.rfl, hle⟩
  exact ⟨h.split, h.handled, h.unread, h.live, fun hzero => absurd hzero hpos,
    fun _ => ⟨r, tail, rfl, hdata, hinside, h.record,
      fun htwo => ⟨hhigh htwo, fun _ => hnone.late⟩⟩⟩

theorem Mid.fromLength_eq {bytes : List UInt8} {offset' n : Nat} (h : l.Mid rs done r tail offset)
    (hdata : carriesData r.command = true) (hpos : 0 < offset) (hgot : l.cmd.gotdatalen = 2 - n)
    (hn : 0 < n ∧ n ≤ 2) (hsome : l.ReadsSome n bytes m)
    (hstored : storeLength (r.record offset) bytes = r.record offset') :
    l.fromLength = ({ m with cmd := r.record offset' } : Ctrl).fromData := by
  have hmcmd : m.cmd = r.record offset := by rw [hsome.rest, h.record]
  rw [fromLength, readLength_of h hdata hpos (by omega), hgot, Nat.sub_sub_self hn.2,
    hsome.result]
  obtain ⟨b, bs, rfl⟩ := exists_cons_of_ne_nil hsome.nonempty
  simp only [hmcmd, hstored]

theorem Mid.lengthLow (h : l.Mid rs done r tail 2) (hwf : r.WellFormed)
    (hdata : carriesData r.command = true) (hhigh : 256 ≤ r.data.length)
    (hlate : l.pipe = [] → ∀ c post, l.coming = c :: post → c.early = false) :
    Outcome rs l.coming l.left l.fromLength := by
  have hinside : 2 < r.bytes.length := by
    rw [length_bytes_of_carriesData hdata]
    omega
  have hgot : l.cmd.gotdatalen = 1 := by
    rw [h.record]
    rfl
  have hlength := readLength_of h hdata (by decide) (by rw [hgot]; decide)
  rw [hgot] at hlength
  rcases l.read_cases (n := 1) Nat.one_pos with hnone | ⟨bytes, m, hsome⟩
  · rw [hnone.result] at hlength
    rw [fromLength, hlength]
    exact h.waits hdata hinside nofun hnone (fun _ => hhigh) (Nat.le_of_eq hnone.left_eq.symm)
  · have hunread := h.unread
    rw [hsome.unread, ← drop_drop (i := 1) (j := 1), stream_drop_one hdata,
      drop_succ_cons,
      drop_zero] at hunread
    obtain ⟨b, hb⟩ : ∃ b, bytes = [b] :=
      List.length_eq_one_iff.mp (Nat.le_antisymm hsome.length_le
        (List.length_pos_iff.mpr hsome.nonempty))
    subst hb
    rw [singleton_append] at hunread
    obtain rfl := (List.cons.inj hunread).1
    have hmid : ({ m with cmd := r.record 3 } : Ctrl).Mid rs done r tail 3 := h.read hsome rfl rfl
    rw [h.fromLength_eq hdata Nat.two_pos hgot (by decide) hsome
      (storeLength_low r hwf.short)]
    refine (hmid.data hdata).trans ?_ hsome.size_le
    refine hsome.fine_iff fun hpipe c post hcoming hearly => ?_
    rw [hlate hpipe c post hcoming] at hearly
    cases hearly

theorem Mid.torn (h : l.Mid rs done r tail 2) (hwf : r.WellFormed) (htail : tail ≠ [])
    (hdata : carriesData r.command = true) (hpipe : l.pipe = []) :
    Outcome rs l.coming l.size l.fromData := by
  have hinside : 2 < r.bytes.length := by
    rw [length_bytes_of_carriesData hdata]
    omega
  have hshort := hwf.short
  obtain ⟨c, post, hcoming⟩ := h.exists_coming hinside hpipe
  have htears := h.tears_eq hinside hpipe hcoming
  have hdatalen : l.cmd.datalen = r.data.length / 256 * 256 := by
    rw [h.record]
    exact Nat.shiftLeft_eq _ 8
  have hreaddata : l.cmd.readdata = 0 := by
    rw [h.record]
    rfl
  have hnull : l.cmd.data = none := by
    rw [h.record]
    rfl
  by_cases hhigh : r.data.length < 256
  · have hread : l.readData = .ok l := by
      rw [readData, if_neg]
      omega
    have hnot : ¬Fine rs l.coming := by
      rw [hcoming, Fine, htears]
      simp [hdata, hhigh]
    have hcalled : l.dispatch.handled = done.map handlerCall ++ [⟨r.command, 0, none⟩] := by
      rw [dispatch, h.handled, hnull, hdatalen, Nat.div_eq_of_lt hhigh, h.record]
      rfl
    rw [fromData, hread]
    refine Or.inr ⟨?_, hnot⟩
    by_cases hempty : r.data = []
    · -- the handler was right to get no data, but the low byte is still to come
      have hright : l.dispatch.handled = (done ++ [r]).map handlerCall := by
        rw [hcalled, map_append, map_singleton, handlerCall, hempty]
        rfl
      refine Or.inr ⟨handled_ne (by rw [h.split, append_cons]) htail hright, Or.inr ⟨rfl,
        stream tail, ?_⟩⟩
      change l.unread = _
      rw [h.unread, ← drop_drop (i := 1) (j := 1), stream_drop_one hdata, drop_succ_cons,
        drop_zero, hempty]
      rfl
    · refine Or.inl fun hprefix => ?_
      rw [hcalled, h.split, map_append, prefix_append_right_inj, map_cons,
        cons_prefix_cons] at hprefix
      have hlen := congrArg HandlerCall.datalen hprefix.1
      exact hempty (List.length_eq_zero_iff.mp hlen.symm)
  · have hmore : l.cmd.readdata < l.cmd.datalen := by omega
    rcases l.read_cases (n := l.cmd.datalen - l.cmd.readdata) (by omega) with hnone |
        ⟨bytes, m, hsome⟩
    · have hread : l.readData = .error l := by rw [readData, if_pos hmore, hnone.result]
      rw [fromData, hread]
      exact h.waits hdata hinside nofun hnone (fun _ => Nat.le_of_not_lt hhigh) (Nat.le_refl _)
    · have hearly : c.early = true := by
        rcases hsome.coming with heq | ⟨c', hc', -, hearly⟩
        · exfalso
          have hunread := hsome.unread
          rw [Ctrl.unread, hpipe, nil_append, Ctrl.unread, heq, ← append_assoc] at hunread
          exact hsome.nonempty (List.append_eq_nil_iff.mp (List.self_eq_append_left.mp hunread)).1
        · rw [hcoming] at hc'
          rw [(List.cons.inj hc').1]
          exact hearly
      have hnot : ¬Fine rs l.coming := by
        rw [hcoming, Fine, htears]
        simp [hdata, hearly]
      have hread : l.readData = .error m.sendError := by
        have hmnull : m.cmd.data = none := by
          rw [hsome.rest]
          exact hnull
        rw [readData, if_pos hmore, hsome.result]
        obtain ⟨b, bs, hb⟩ := exists_cons_of_ne_nil hsome.nonempty
        subst hb
        simp only [hmnull]
      have hmhandled : m.sendError.handled = done.map handlerCall := by
        rw [hsome.rest]
        exact h.handled
      rw [fromData, hread]
      exact Or.inr ⟨Or.inr ⟨handled_ne h.split (cons_ne_nil r tail) hmhandled, Or.inl rfl⟩,
        hnot⟩

theorem Mid.length (h : l.Mid rs done r tail 1) (hwf : r.WellFormed) (htail : tail ≠ [])
    (hdata : carriesData r.command = true) : Outcome rs l.coming l.left l.fromLength := by
  have hinside : 1 < r.bytes.length := by
    rw [length_bytes_of_carriesData hdata]
    omega
  have hgot : l.cmd.gotdatalen = 0 := by
    rw [h.record]
    rfl
  have hlength := readLength_of h hdata Nat.one_pos (by rw [hgot]; decide)
  rw [hgot] at hlength
  rcases l.read_cases (n := 2) Nat.two_pos with hnone | ⟨bytes, m, hsome⟩
  · rw [hnone.result] at hlength
    rw [fromLength, hlength]
    exact h.waits hdata hinside nofun hnone nofun (Nat.le_of_eq hnone.left_eq.symm)
  have hfine : Fine rs l.coming ↔ Fine rs m.coming := h.fine_iff hinside (by decide) hsome
  have hsize : m.size ≤ l.left := hsome.size_le
  have hunread := h.unread
  rw [hsome.unread, stream_drop_one hdata] at hunread
  obtain ⟨b, bs, rfl⟩ := exists_cons_of_ne_nil hsome.nonempty
  obtain ⟨rfl, hbehind⟩ := List.cons.inj hunread
  rcases bs with _ | ⟨low, bs⟩
  · -- one byte of the length
    have hmid : ({ m with cmd := r.record 2 } : Ctrl).Mid rs done r tail 2 := h.read hsome rfl rfl
    rw [h.fromLength_eq hdata Nat.one_pos hgot (by decide) hsome
      (storeLength_high r hwf.short)]
    exact (hmid.torn hwf htail hdata (hsome.empty Nat.one_lt_two)).trans hfine hsize
  · -- both bytes of the length
    obtain rfl : bs = [] := by
      have hle := hsome.length_le
      simp only [length_cons] at hle
      exact List.length_eq_zero_iff.mp (by omega)
    obtain ⟨rfl, -⟩ := List.cons.inj hbehind
    have hmid : ({ m with cmd := r.record 3 } : Ctrl).Mid rs done r tail 3 := h.read hsome rfl rfl
    rw [h.fromLength_eq hdata Nat.one_pos hgot (by decide) hsome
      (storeLength_both r hwf.short)]
    exact (hmid.data hdata).trans hfine hsize

/-! ### Calls and the loop -/

/-- The commands of a stream, the last of which has no data. -/
structure WellFormedCommands (rs : List SlinkCommand) : Prop where
  each : ∀ r ∈ rs, r.WellFormed
  last : ∀ done r, rs = done ++ [r] → carriesData r.command = false

theorem At.command {todo : List SlinkCommand} (hrs : WellFormedCommands rs)
    (h : l.At rs done todo 0)
    (hpipe : l.pipe ≠ []) : Outcome rs l.coming l.left l.call := by
  set l₀ : Ctrl := { l with cmd := {} } with hl₀
  have hunread := h.unread
  rw [drop_zero] at hunread
  rcases l₀.read_cases (n := 1) Nat.one_pos with hnone | ⟨bytes, m, hsome⟩
  · exact absurd hnone.pipe hpipe
  cases todo with
  | nil =>
    exfalso
    rw [Ctrl.unread] at hunread
    exact hpipe (List.append_eq_nil_iff.mp hunread).1
  | cons r tail =>
    have hmem : r ∈ rs := by
      rw [h.split]
      exact mem_append_right _ mem_cons_self
    have hwf := hrs.each r hmem
    obtain ⟨more, hmore⟩ : ∃ more, r.bytes = r.command :: more := by
      rw [SlinkCommand.bytes]
      split <;> exact ⟨_, rfl⟩
    have hsplit : bytes ++ m.unread = r.command :: (more ++ stream tail) := by
      rw [← hsome.unread, ← cons_append, ← hmore, ← stream_cons]
      exact hunread
    obtain ⟨b, bs, rfl⟩ := exists_cons_of_ne_nil hsome.nonempty
    obtain rfl : bs = [] := by
      have hle := hsome.length_le
      simp only [length_cons] at hle
      exact List.length_eq_zero_iff.mp (by omega)
    obtain ⟨rfl, hbehind⟩ := List.cons.inj hsplit
    have hmcmd : m.cmd = {} := by rw [hsome.rest]
    have hread : l.readCommand = .ok { m with cmd := r.record 1 } := by
      rw [readCommand, if_pos (h.start rfl), ← hl₀, hsome.result]
      simp only [hmcmd]
      rfl
    have hcoming : m.coming = l.coming := by
      rcases hsome.coming with heq | ⟨c, -, hempty, -⟩
      · exact heq
      · exact absurd hempty hpipe
    have hmhandled : m.handled = done.map handlerCall := by
      rw [hsome.rest]
      exact h.handled
    have hmlive : m.exited = false := by
      rw [hsome.rest]
      exact h.live
    have hless : m.size ≤ l.left := hsome.size_le
    rw [call_of_ok hread]
    cases hdata : carriesData r.command with
    | true =>
      have htail : tail ≠ [] := by
        rintro rfl
        have hlast := hrs.last done r h.split
        rw [hdata] at hlast
        cases hlast
      have hmid : ({ m with cmd := r.record 1 } : Ctrl).Mid rs done r tail 1 := by
        refine ⟨h.split, hmhandled, ?_, hmlive, rfl⟩
        rw [stream_cons, hmore]
        exact hbehind
      refine (hmid.length hwf htail hdata).trans ?_ ((left_le _).trans hless)
      rw [← hcoming]
    | false =>
      obtain ⟨d, hd, hflag⟩ := cdef_of_noData hwf hdata
      have hempty := hwf.noData hdata
      have hlength : readLength { m with cmd := r.record 1 } = .ok
          { m with cmd := r.record 1 } := by
        rw [readLength]
        change (match cdef r.command with | none => _ | some d => _) = _
        rw [hd]
        exact if_neg fun hless => by simp [hflag] at hless
      have hdataread : readData { m with cmd := r.record 1 } = .ok
          { m with cmd := r.record 1 } :=
        if_neg (Nat.lt_irrefl 0)
      have hnext : fromLength { m with cmd := r.record 1 } = dispatch
          { m with cmd := r.record 1 } := by
        rw [fromLength, hlength]
        simp only [fromData, hdataread]
      rw [hnext]
      have hnone : more = [] := by
        rw [bytes_of_noData hdata] at hmore
        exact (List.cons.inj hmore).2.symm
      refine Or.inl ⟨_, _, _, at_dispatch h.split hmhandled ?_ hmlive ?_, ?_, hless⟩
      · rw [hnone, nil_append] at hbehind
        exact hbehind
      · rw [handlerCall, hempty]
        rfl
      · change Fine rs l.coming ↔ Fine rs m.coming
        rw [hcoming]

theorem At.call {todo : List SlinkCommand} (hrs : WellFormedCommands rs)
    (h : l.At rs done todo offset)
    (hpipe : l.pipe ≠ []) : Outcome rs l.coming l.left l.call := by
  by_cases hzero : offset = 0
  · subst hzero
    exact h.command hrs hpipe
  obtain ⟨r, tail, rfl, hdata, hinside, hcmd, htorn⟩ := h.inside hzero
  have hmid : l.Mid rs done r tail offset := ⟨h.split, h.handled, h.unread, h.live, hcmd⟩
  have hwf : r.WellFormed := by
    refine hrs.each r ?_
    rw [h.split]
    exact mem_append_right _ mem_cons_self
  have htail : tail ≠ [] := by
    rintro rfl
    have hlast := hrs.last done r h.split
    rw [hdata] at hlast
    cases hlast
  have hread : l.readCommand = .ok l := by
    rw [readCommand, if_neg]
    rw [hcmd, record_command (Nat.pos_of_ne_zero hzero)]
    exact command_ne_zero hwf
  rw [call_of_ok hread]
  rcases offset with _ | _ | _ | k
  · exact absurd rfl hzero
  · exact hmid.length hwf htail hdata
  · obtain ⟨hhigh, hlate⟩ := htorn rfl
    exact hmid.lengthLow hwf hdata hhigh hlate
  · rw [readLength_done hmid hdata]
    rw [length_bytes_of_carriesData hdata] at hinside
    exact hmid.someData hdata (Nat.lt_of_add_lt_add_right hinside)

theorem At.turn {todo : List SlinkCommand} (hrs : WellFormedCommands rs)
    (h : l.At rs done todo offset)
    (hmore : l.unread ≠ []) : Outcome rs l.coming (l.size - 1) l.turn := by
  by_cases hpipe : l.pipe = []
  · obtain ⟨c, post, hcoming⟩ : ∃ c post, l.coming = c :: post := by
      refine exists_cons_of_ne_nil fun hnil => hmore ?_
      rw [Ctrl.unread, hpipe, hnil]
      rfl
    set l₁ : Ctrl := { l with pipe := c.bytes, coming := post } with hl₁
    have hturn : l.turn = l₁.call := by
      rw [Ctrl.turn, if_neg (by simp [h.live]), hpipe, hcoming]
    have hunread : l₁.unread = l.unread := by
      simp [Ctrl.unread, hl₁, hpipe, hcoming, chunkBytes]
    have hfull : l₁.pipe ≠ [] := c.ne
    have hat : l₁.At rs done todo offset := by
      refine ⟨h.split, h.handled, hunread.trans h.unread, h.live, h.start, fun hne => ?_⟩
      obtain ⟨r, tail, htodo, hdata, hinside, hcmd, htorn⟩ := h.inside hne
      exact ⟨r, tail, htodo, hdata, hinside, hcmd, fun htwo =>
        ⟨(htorn htwo).1, fun hempty => absurd hempty hfull⟩⟩
    have hsize : l₁.left ≤ l.size - 1 := by
      have hlen := congrArg List.length hcoming
      rw [length_cons] at hlen
      refine l₁.left_le.trans ?_
      rw [size, size, hunread, hlen]
      exact Nat.le_refl _
    have hfits : tears rs ((stream rs).length - (chunkBytes (c :: post)).length) c.early =
        false := by
      have hbytes : chunkBytes (c :: post) = (stream todo).drop offset := by
        rw [← h.unread, Ctrl.unread, hpipe, hcoming, nil_append]
      by_cases hzero : offset = 0
      · subst hzero
        cases todo with
        | nil =>
          rw [stream, flatMap_nil, drop_nil] at hbytes
          exact absurd (List.append_eq_nil_iff.mp hbytes).1 c.ne
        | cons r tail =>
          rw [tears_at h.split (List.length_pos_iff.mpr r.bytes_ne_nil) hbytes]
          simp
      · obtain ⟨r, tail, rfl, hdata, hinside, -, htorn⟩ := h.inside hzero
        rw [tears_at h.split hinside hbytes]
        by_cases htwo : offset = 2
        · obtain ⟨hhigh, hlate⟩ := htorn htwo
          simp [hlate hpipe c post hcoming, hhigh]
        · simp [htwo]
    rw [hturn]
    refine (hat.call hrs hfull).trans ?_ hsize
    rw [hcoming, Fine]
    exact and_iff_right hfits
  · have hturn : l.turn = l.call := by
      rw [Ctrl.turn, if_neg (by simp [h.live])]
      split
      · rename_i hempty _
        exact absurd hempty hpipe
      · rename_i hempty _
        exact absurd hempty hpipe
      · rfl
    rw [hturn]
    have hleft : l.left = l.size - 1 := if_neg hpipe
    exact hleft ▸ h.call hrs hpipe

theorem At.finished {todo : List SlinkCommand} (h : l.At rs done todo offset) (hend : l.unread = [])
    :
    l.handled = rs.map handlerCall ∧ l.coming = [] := by
  have hdone : todo = [] := by
    have hunread := h.unread
    rw [hend] at hunread
    have hlen := List.drop_eq_nil_iff.mp hunread.symm
    cases todo with
    | nil => rfl
    | cons r tail =>
      exfalso
      rw [stream_cons, length_append] at hlen
      have hpos := List.length_pos_iff.mpr r.bytes_ne_nil
      by_cases hzero : offset = 0
      · omega
      · obtain ⟨r', tail', heq, -, hinside, -⟩ := h.inside hzero
        obtain ⟨rfl, rfl⟩ := List.cons.inj heq
        omega
  refine ⟨?_, ?_⟩
  · rw [h.handled, h.split, hdone, append_nil]
  · rw [Ctrl.unread] at hend
    cases hcoming : l.coming with
    | nil => rfl
    | cons c post =>
      have hbytes := (List.append_eq_nil_iff.mp hend).2
      rw [hcoming] at hbytes
      exact absurd (List.append_eq_nil_iff.mp hbytes).1 c.ne

/-! ### A servlink that is lost -/

theorem read_handled (l : Ctrl) (n : Nat) : (l.read n).2.handled = l.handled := by
  simp only [Ctrl.read, refill]
  split <;> rfl

/-- What the reads of a call leave has handled as much as before. -/
def Kept (l : Ctrl) : Except Ctrl Ctrl → Prop
  | .error m => m.handled = l.handled
  | .ok m => m.handled = l.handled

theorem kept_readCommand (l : Ctrl) : Kept l l.readCommand := by
  unfold readCommand
  split
  · have hread := read_handled { l with cmd := {} } 1
    split <;> (rename_i heq; rw [heq] at hread; exact hread)
  · rfl

theorem kept_readLength (l : Ctrl) : Kept l l.readLength := by
  unfold readLength
  split
  · rfl
  · split
    · have hread := read_handled l (2 - l.cmd.gotdatalen)
      split <;> (rename_i heq; rw [heq] at hread; exact hread)
    · rfl

theorem kept_readData (l : Ctrl) : Kept l l.readData := by
  unfold readData
  split
  · have hread := read_handled l (l.cmd.datalen - l.cmd.readdata)
    split
    · rename_i heq
      rw [heq] at hread
      exact hread
    · rename_i heq
      rw [heq] at hread
      split
      · exact hread
      · dsimp only
        split <;> exact hread
  · rfl

theorem handled_prefix_call (l : Ctrl) : l.handled <+: l.call.handled := by
  have hcommand := l.kept_readCommand
  unfold call
  cases h₁ : l.readCommand with
  | error m =>
    rw [h₁] at hcommand
    exact hcommand ▸ prefix_rfl
  | ok m =>
    rw [h₁] at hcommand
    have hlength := m.kept_readLength
    change l.handled <+: (match m.readLength >>= readData with
      | .error l => l
      | .ok l => dispatch l).handled
    cases h₂ : m.readLength with
    | error m' =>
      rw [h₂] at hlength
      exact (hlength.trans hcommand) ▸ prefix_rfl
    | ok m' =>
      rw [h₂] at hlength
      have hdata := m'.kept_readData
      change l.handled <+: (match m'.readData with
        | .error l => l
        | .ok l => dispatch l).handled
      cases h₃ : m'.readData with
      | error k =>
        rw [h₃] at hdata
        exact (hdata.trans (hlength.trans hcommand)) ▸ prefix_rfl
      | ok k =>
        rw [h₃] at hdata
        have hkept : k.handled = l.handled := hdata.trans (hlength.trans hcommand)
        change l.handled <+: k.handled ++ _
        rw [hkept]
        exact prefix_append _ _

theorem Lost.turn (h : l.Lost rs) : l.turn.Lost rs := by
  have hgrows : l.handled <+: l.turn.handled := by
    unfold Ctrl.turn
    split
    · exact prefix_rfl
    · split
      · exact prefix_rfl
      · rename_i c coming _ _
        exact handled_prefix_call { l with pipe := c.bytes, coming := coming }
      · exact handled_prefix_call l
  rcases h with hwrong | ⟨hshort, hexited | ⟨hzero, s, hnext⟩⟩
  · exact Or.inl fun hprefix => hwrong (hgrows.trans hprefix)
  · rw [Ctrl.turn, if_pos hexited]
    exact Or.inr ⟨hshort, Or.inl hexited⟩
  · -- the byte that comes next is in no line of the table
    by_cases hexited : l.exited = true
    · rw [Ctrl.turn, if_pos hexited]
      exact Or.inr ⟨hshort, Or.inl hexited⟩
    have hcall : ∀ l' : Ctrl, l'.cmd.command = 0 → l'.handled = l.handled → l'.unread = 0 :: s →
        l'.pipe ≠ [] → (l'.call).exited = true ∧ l'.call.handled = l.handled := by
      intro l' hzero' hhandled hunread hpipe
      set l₀ : Ctrl := { l' with cmd := {} } with hl₀
      rcases l₀.read_cases (n := 1) Nat.one_pos with hnone | ⟨bytes, m, hsome⟩
      · exact absurd hnone.pipe hpipe
      obtain ⟨b, bs, rfl⟩ := exists_cons_of_ne_nil hsome.nonempty
      have hbytes := hsome.unread.symm.trans hunread
      rw [cons_append] at hbytes
      obtain ⟨rfl, -⟩ := List.cons.inj hbytes
      have hread : l'.readCommand = .ok { m with cmd := { m.cmd with command := 0 } } := by
        rw [readCommand, if_pos hzero', ← hl₀, hsome.result]
      have hlength : readLength { m with cmd := { m.cmd with command := 0 } } =
          .error (sendError { m with cmd := { m.cmd with command := 0 } }) := rfl
      rw [call_of_ok hread, fromLength, hlength]
      refine ⟨rfl, ?_⟩
      change m.handled = _
      rw [hsome.rest, ← hhandled]
    obtain ⟨l', hturn, hzero', hhandled, hunread, hpipe⟩ : ∃ l' : Ctrl, l.turn = l'.call ∧
        l'.cmd.command = 0 ∧ l'.handled = l.handled ∧ l'.unread = 0 :: s ∧ l'.pipe ≠ [] := by
      rw [Ctrl.turn, if_neg hexited]
      split
      · rename_i hpipe hcoming
        rw [Ctrl.unread, hpipe, hcoming] at hnext
        cases hnext
      · rename_i c coming hpipe hcoming
        refine ⟨_, rfl, hzero, rfl, ?_, c.ne⟩
        rw [← hnext]
        simp [Ctrl.unread, hpipe, hcoming, chunkBytes]
      · rename_i hnone hmany
        refine ⟨l, rfl, hzero, rfl, hnext, fun hpipe => ?_⟩
        cases hcoming : l.coming with
        | nil => exact hnone hpipe hcoming
        | cons c coming => exact hmany c coming hpipe hcoming
    obtain ⟨hends, hkept⟩ := hcall l' hzero' hhandled hunread hpipe
    rw [hturn]
    exact Or.inr ⟨hkept.symm ▸ hshort, Or.inl hends⟩

theorem Lost.loop (h : l.Lost rs) (n : Nat) : (loop n l).handled ≠ rs.map handlerCall := by
  induction n generalizing l with
  | zero =>
    rcases h with hwrong | ⟨hshort, -⟩
    · exact fun heq => hwrong (heq ▸ prefix_rfl)
    · exact hshort
  | succ n ih => exact ih h.turn

theorem At.loop {todo : List SlinkCommand} (hrs : WellFormedCommands rs)
    (h : l.At rs done todo offset)
    {n : Nat} (hn : l.size ≤ n) : (loop n l).handled = rs.map handlerCall ↔ Fine rs l.coming := by
  induction n generalizing l done todo offset with
  | zero =>
    have hend : l.unread = [] := by
      refine List.length_eq_zero_iff.mp ?_
      unfold size at hn
      omega
    obtain ⟨hall, hnone⟩ := h.finished hend
    rw [hnone]
    exact iff_of_true hall trivial
  | succ n ih =>
    by_cases hend : l.unread = []
    · obtain ⟨hall, hnone⟩ := h.finished hend
      have hidle : l.turn = l := by
        rw [Ctrl.turn, if_neg (by simp [h.live]), (List.append_eq_nil_iff.mp hend).1, hnone]
      have hstays : ∀ k, Ctrl.loop k l = l := by
        intro k
        induction k with
        | zero => rfl
        | succ k ihk => rw [Ctrl.loop, hidle, ihk]
      rw [hstays, hnone]
      exact iff_of_true hall trivial
    · have hpos : 0 < l.size := by
        have := List.length_pos_iff.mpr hend
        unfold size
        omega
      rw [Ctrl.loop]
      rcases h.turn hrs hend with ⟨done', todo', offset', hat, hfine, hsize⟩ | ⟨hlost, hnot⟩
      · rw [hfine]
        exact ih hat (by omega)
      · exact iff_of_false (hlost.loop n) hnot

theorem fine_iff_places {chunks : List Chunk} (hchunks : chunkBytes chunks = stream rs) :
    Fine rs chunks ↔
      ∀ pre c post, chunks = pre ++ c :: post → tears rs (chunkBytes pre).length c.early =
        false := by
  have hgeneral : ∀ before rest, chunks = before ++ rest → (Fine rs rest ↔
      ∀ pre c post, rest = pre ++ c :: post → tears rs (chunkBytes (before ++ pre)).length c.early =
        false) := by
    intro before rest
    induction rest generalizing before with
    | nil =>
      intro _
      refine iff_of_true trivial fun pre c post heq => ?_
      simp at heq
    | cons c rest ih =>
      intro heq
      have hplace : (stream rs).length - (chunkBytes (c :: rest)).length =
          (chunkBytes before).length := by
        rw [← hchunks, heq, chunkBytes, chunkBytes, flatMap_append, length_append,
          Nat.add_sub_cancel]
        rfl
      rw [Fine, hplace, ih (before ++ [c]) (by rw [heq, append_cons])]
      constructor
      · rintro ⟨hhere, hrest⟩ pre c' post hsplit
        cases pre with
        | nil =>
          obtain ⟨rfl, -⟩ := List.cons.inj hsplit
          rwa [append_nil]
        | cons d pre =>
          obtain ⟨rfl, htail⟩ := List.cons.inj hsplit
          have := hrest pre c' post htail
          rwa [append_assoc] at this
      · intro hall
        refine ⟨?_, fun pre c' post hsplit => ?_⟩
        · have := hall [] c rest rfl
          rwa [append_nil] at this
        · have := hall (c :: pre) c' post (by rw [hsplit, cons_append])
          rwa [append_assoc]
  exact hgeneral [] chunks rfl

theorem commands_decoded (hrs : WellFormedCommands rs) {chunks : List Chunk}
    (hchunks : chunkBytes chunks = stream rs) {n : Nat} (hn : (stream rs).length + chunks.length ≤
      n) :
    (loop n { coming := chunks }).handled = rs.map handlerCall ↔
      ∀ pre c post, chunks = pre ++ c :: post → tears rs (chunkBytes pre).length c.early =
        false := by
  have hat : ({ coming := chunks } : Ctrl).At rs [] rs 0 :=
    ⟨rfl, rfl, hchunks, rfl, fun _ => rfl, fun h => absurd rfl h⟩
  have hsize : ({ coming := chunks } : Ctrl).size ≤ n := by
    change (chunkBytes chunks).length + chunks.length ≤ n
    rwa [hchunks]
  rw [← fine_iff_places hchunks]
  exact hat.loop hrs hsize

end Ctrl

/-! ### The stream of `start_io` -/

namespace SlinkServer

open SlinkCommand

/-- The commands that `start_io` gives the servlink, before it starts it. -/
def settings (s : SlinkServer) : List SlinkCommand :=
  (if s.zip then [⟨1, [s.compressionLevel]⟩, ⟨3, []⟩, ⟨2, []⟩] else []) ++
    (match s.enc with
      | none => []
      | some (inCipher, outCipher) =>
        [⟨4, [inCipher.cipherid]⟩, ⟨5, inCipher.key⟩, ⟨7, [outCipher.cipherid]⟩, ⟨8, outCipher.key⟩,
          ⟨6, []⟩, ⟨9, []⟩]) ++
    s.recvq.blocks.map (fun b => ⟨SLINKCMD_INJECT_RECVQ, blockBytes b⟩) ++
    s.sendq.blocks.map (fun b => ⟨SLINKCMD_INJECT_SENDQ, blockBytes b⟩)

/-- The settings, and then `INIT`. -/
def commands (s : SlinkServer) : List SlinkCommand := s.settings ++ [⟨SLINKCMD_INIT, []⟩]

theorem length_blockBytes (b : DbufBlock) : (blockBytes b).length = b.size := length_map _

theorem stream_blocks {command : UInt8} (h : carriesData command = true) (blocks : List DbufBlock) :
    stream (blocks.map fun b => ⟨command, blockBytes b⟩) = blocks.flatMap
      (injectBlock command) := by
  induction blocks with
  | nil => rfl
  | cons b blocks ih =>
    have hlow : b.size &&& 0xff = b.size % 256 := Nat.and_two_pow_sub_one_eq_mod b.size 8
    have hhigh : b.size >>> 8 = b.size / 256 := Nat.shiftRight_eq_div_pow b.size 8
    rw [map_cons, stream_cons, ih, flatMap_cons, injectBlock, hlow, hhigh,
      bytes_of_carriesData h, length_blockBytes]

theorem startIo_eq (s : SlinkServer) : s.startIo = stream s.commands := by
  have hzip : stream (if s.zip then [⟨1, [s.compressionLevel]⟩, ⟨3, []⟩, ⟨2, []⟩] else []) =
      if s.zip then [1, 0, 1, s.compressionLevel, 3, 2] else [] := by
    split
    · simp [stream, bytes, carriesData, cdef, commandTable]
    · rfl
  have hinit : stream [⟨SLINKCMD_INIT, []⟩] = [SLINKCMD_INIT] := rfl
  rw [commands, settings, stream_append, stream_append, stream_append, stream_append,
    stream_blocks (by decide), stream_blocks (by decide), hzip, hinit, startIo]
  cases s.enc with
  | none => rfl
  | some ciphers =>
    obtain ⟨inCipher, outCipher⟩ := ciphers
    have hkey : ∀ c : LinkCipher, c.keylen / 256 = 0 ∧ c.keylen % 256 = c.keylen := fun c =>
      ⟨Nat.div_eq_of_lt c.keylen_lt, Nat.mod_eq_of_lt c.keylen_lt⟩
    have hcipher : stream [⟨4, [inCipher.cipherid]⟩, ⟨5, inCipher.key⟩, ⟨7, [outCipher.cipherid]⟩,
        ⟨8, outCipher.key⟩, ⟨6, []⟩, ⟨9, []⟩] =
        [4, 0, 1, inCipher.cipherid] ++ (5 :: 0 :: UInt8.ofNat inCipher.keylen :: inCipher.key) ++
          [7, 0, 1, outCipher.cipherid] ++ (8 :: 0 :: UInt8.ofNat outCipher.keylen ::
            outCipher.key) ++
          [6, 9] := by
      have hin := bytes_of_carriesData (r := ⟨5, inCipher.key⟩)
          (show carriesData 5 = true by decide)
      have hout := bytes_of_carriesData (r := ⟨8, outCipher.key⟩)
          (show carriesData 8 = true by decide)
      rw [inCipher.length_key, (hkey inCipher).1, (hkey inCipher).2] at hin
      rw [outCipher.length_key, (hkey outCipher).1, (hkey outCipher).2] at hout
      rw [stream_cons, stream_cons, stream_cons, stream_cons, hin, hout]
      simp [stream, bytes, carriesData, cdef, commandTable]
    simp only [hcipher]

theorem wellFormed_of_data {command : UInt8} (hdata : carriesData command = true)
    {data : List UInt8}
    (hshort : data.length < 65536) : (⟨command, data⟩ : SlinkCommand).WellFormed where
  known := by
    obtain ⟨d, hd, -⟩ := cdef_of_carriesData hdata
    rw [hd]
    rfl
  noData h := by
    rw [hdata] at h
    cases h
  short := hshort

theorem wellFormed_of_none {command : UInt8} (h : (cdef command).isSome = true) :
    (⟨command, []⟩ : SlinkCommand).WellFormed :=
  ⟨h, fun _ => rfl, Nat.zero_lt_succ _⟩

theorem wellFormed_commands (s : SlinkServer) : Ctrl.WellFormedCommands s.commands where
  each r hr := by
    have hblock : ∀ command : UInt8, carriesData command = true → ∀ blocks : List DbufBlock,
        r ∈ blocks.map (fun b => (⟨command, blockBytes b⟩ : SlinkCommand)) → r.WellFormed := by
      intro command hdata blocks hmem
      obtain ⟨b, -, rfl⟩ := List.mem_map.mp hmem
      have hfits : b.size ≤ 1024 := b.fits
      refine wellFormed_of_data hdata ?_
      rw [length_blockBytes]
      omega
    rcases List.mem_append.mp hr with hr | hr
    · rcases List.mem_append.mp hr with hr | hr
      · rcases List.mem_append.mp hr with hr | hr
        · rcases List.mem_append.mp hr with hr | hr
          · by_cases hzip : s.zip = true
            · rw [if_pos hzip] at hr
              rcases List.mem_cons.mp hr with rfl | hr
              · exact wellFormed_of_data (by decide) (by decide : 1 < 65536)
              · rcases List.mem_pair.mp hr with rfl | rfl <;> exact wellFormed_of_none (by decide)
            · rw [if_neg hzip] at hr
              cases hr
          · cases henc : s.enc with
            | none =>
              rw [henc] at hr
              cases hr
            | some ciphers =>
              obtain ⟨inCipher, outCipher⟩ := ciphers
              have hin := inCipher.length_key ▸ inCipher.keylen_lt
              have hout := outCipher.length_key ▸ outCipher.keylen_lt
              rw [henc] at hr
              simp only [mem_cons, not_mem_nil, or_false] at hr
              rcases hr with rfl | rfl | rfl | rfl | rfl | rfl
              · exact wellFormed_of_data (by decide) (by decide : 1 < 65536)
              · exact wellFormed_of_data (by decide) (hin.trans (by decide))
              · exact wellFormed_of_data (by decide) (by decide : 1 < 65536)
              · exact wellFormed_of_data (by decide) (hout.trans (by decide))
              · exact wellFormed_of_none (by decide)
              · exact wellFormed_of_none (by decide)
        · exact hblock _ (by decide) _ hr
      · exact hblock _ (by decide) _ hr
    · rw [List.mem_singleton.mp hr]
      exact wellFormed_of_none (by decide)
  last done r h := by
    obtain ⟨-, hinit⟩ := append_inj' h rfl
    rw [← (List.cons.inj hinit).1]
    decide

/-- The buffer that `start_io` allocates is filled exactly, and `read_ctrl` takes the commands
out of it again, in their order, with their data and `INIT` last, exactly if the pipe does not
divide it between the two bytes of a length without a high byte, or between the two bytes of
another length just while `read_ctrl` runs. -/
theorem start_io_decoded (s : SlinkServer) (hrecvq : s.recvq.Counted) (hsendq : s.sendq.Counted)
    (chunks : List Chunk) (hchunks : chunkBytes chunks = s.startIo) (n : Nat)
    (hn : s.startIo.length + chunks.length ≤ n) :
    (s.startIo.length = s.alloclen ∧
      (Ctrl.loop n { coming := chunks }).handled = s.settings.map handlerCall ++
        [⟨SLINKCMD_INIT, 0, none⟩]) ↔
      ∀ pre c post, chunks = pre ++ c :: post → tears s.commands (chunkBytes pre).length c.early =
        false := by
  rw [s.startIo_eq] at hchunks hn
  have hexpected : s.commands.map handlerCall = s.settings.map handlerCall ++
      [⟨SLINKCMD_INIT, 0, none⟩] := by
    rw [commands, map_append]
    rfl
  rw [← hexpected, ← Ctrl.commands_decoded s.wellFormed_commands hchunks hn]
  exact and_iff_right (s.length_startIo hrecvq hsendq)

/-- A link with compression at level 6, and with queues that are empty. -/
def zipLink : SlinkServer := ⟨true, 6, none, .empty, .empty⟩

theorem start_io_decoded_whole :
    (zipLink.startIo.length = zipLink.alloclen ∧
      (Ctrl.loop 8 { coming := [⟨false, [1, 0, 1, 6, 3, 2, 12], by decide⟩] }).handled =
        zipLink.settings.map handlerCall ++ [⟨SLINKCMD_INIT, 0, none⟩]) ↔
      ∀ pre c post, [(⟨false, [1, 0, 1, 6, 3, 2, 12], by decide⟩ : Chunk)] = pre ++ c :: post →
        tears zipLink.commands (chunkBytes pre).length c.early = false :=
  start_io_decoded zipLink rfl rfl _ (by decide) 8 (by decide)

/-- The level of the compression is lost when the pipe ends between the bytes of its length. -/
theorem start_io_torn : ¬∀ (s : SlinkServer), s.recvq.Counted → s.sendq.Counted →
    ∀ chunks, chunkBytes chunks = s.startIo → ∀ n, s.startIo.length + chunks.length ≤ n →
      s.startIo.length = s.alloclen ∧ (Ctrl.loop n { coming := chunks }).handled =
        s.settings.map handlerCall ++ [⟨SLINKCMD_INIT, 0, none⟩] := by
  intro h
  obtain ⟨-, hhandled⟩ := h zipLink rfl rfl
    [⟨false, [1, 0], by decide⟩, ⟨false, [1, 6, 3, 2, 12], by decide⟩] (by decide) 9 (by decide)
  exact absurd hhandled (by decide)

end SlinkServer

end Ircd
