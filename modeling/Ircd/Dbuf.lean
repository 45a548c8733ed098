import Ircd.Line
import Ircd.Lib.Run
import Mathlib.Data.List.DropRight

/-!
The buffer queue: `dbuf_put`, `dbuf_delete` and `extract_one_line`, which cuts
lines off it.

- `scan_bytes`: what the two loops of `extract_one_line` find in a queue.
- `extract_one_line_eq`: what one call returns and leaves.
- `extracted_lines`: the lines of any run are those of a plain split of the
  bytes received, however they were put.
- `dbuf_refines_fifo`: the queue is a FIFO of bytes.
-/

namespace Ircd

open List

/-- `DBUF_BLOCK_SIZE`. -/
def DBUF_BLOCK_SIZE : Nat := 1024

/-- `struct dbuf_block`. -/
structure DbufBlock where
  data : CStr
  fits : data.length ≤ DBUF_BLOCK_SIZE

namespace DbufBlock

/-- The field `size`. -/
def size (b : DbufBlock) : Nat := b.data.length

def room (b : DbufBlock) : Nat := DBUF_BLOCK_SIZE - b.size

/-- What `dbuf_alloc` hangs at the end of a queue. -/
def empty : DbufBlock := ⟨[], Nat.zero_le _⟩

/-- The `memcpy` of `dbuf_put`: as much of the data as fits. -/
def add (b : DbufBlock) (data : CStr) : DbufBlock where
  data := b.data ++ data.take b.room
  fits := by
    have := b.fits
    simp only [length_append, length_take, room, size]
    omega

/-- The `memmove` of `dbuf_delete`. -/
def remove (b : DbufBlock) (count : Nat) : DbufBlock where
  data := b.data.drop count
  fits := by
    have := b.fits
    rw [length_drop]
    omega

end DbufBlock

/-- `struct dbuf_queue`. -/
structure DbufQueue where
  blocks : List DbufBlock
  totalSize : Nat

namespace DbufQueue

def bytes (q : DbufQueue) : CStr := q.blocks.flatMap DbufBlock.data

def empty : DbufQueue := ⟨[], 0⟩

end DbufQueue

/-- The blocks before the last one and the last one, which has room: `dbuf_put`
allocates one when the queue ends in a full block. -/
def withRoom (front : List DbufBlock) (last : DbufBlock) : List DbufBlock × DbufBlock :=
  if last.room = 0 then (front ++ [last], .empty) else (front, last)

theorem withRoom_room (front : List DbufBlock) (last : DbufBlock) :
    0 < (withRoom front last).2.room := by
  unfold withRoom
  split
  · exact Nat.zero_lt_succ 1023
  · exact Nat.pos_of_ne_zero ‹_›

theorem withRoom_bytes (front : List DbufBlock) (last : DbufBlock) :
    (withRoom front last).1.flatMap DbufBlock.data ++ (withRoom front last).2.data =
      front.flatMap DbufBlock.data ++ last.data := by
  unfold withRoom
  split
  · simp [DbufBlock.empty]
  · rfl

/-- The loop of `dbuf_put`, with the last block apart. -/
def putLoop (front : List DbufBlock) (last : DbufBlock) (total : Nat) (data : CStr) : DbufQueue :=
  let next := withRoom front last
  let amount := min next.2.room data.length
  if data.drop amount = [] then ⟨next.1 ++ [next.2.add data], total + amount⟩
  else putLoop next.1 (next.2.add data) (total + amount) (data.drop amount)
termination_by data.length
decreasing_by
  rename_i hrest
  have hroom := withRoom_room front last
  simp only [drop_eq_nil_iff, not_le] at hrest
  simp only [length_drop]
  simp only [amount, next] at hrest ⊢
  omega

/-- `dbuf_put`. -/
def dbufPut (q : DbufQueue) (data : CStr) : DbufQueue :=
  match q.blocks.getLast? with
  | none => putLoop [] .empty q.totalSize data
  | some last => putLoop q.blocks.dropLast last q.totalSize data

/-- The loop of `dbuf_delete` over the blocks; `none` is a queue that runs out. -/
def deleteLoop (total : Nat) : List DbufBlock → Nat → Option DbufQueue
  | blocks, 0 => some ⟨blocks, total⟩
  | [], _ + 1 => none
  | first :: rest, count + 1 =>
    if count + 1 < first.size then
      some ⟨first.remove (count + 1) :: rest, total - (count + 1)⟩
    else deleteLoop (total - first.size) rest (count + 1 - first.size)

/-- `dbuf_delete`; `none` is a failed assertion. -/
def dbufDelete (q : DbufQueue) (count : Nat) : Option DbufQueue :=
  if count ≤ q.totalSize then deleteLoop q.totalSize q.blocks count else none

/-! ### Cutting off a line -/

/-- `IsEol`. -/
def isEol (c : Char) : Bool := c == '\r' || c == '\n'

/-- The part of a line `extract_one_line` is in. -/
inductive Phase
  | before
  | copying
  | after
  deriving DecidableEq, Repr

/-- The local variables of `extract_one_line`. -/
structure Scan where
  phase : Phase := .before
  lineBytes : Nat := 0
  emptyBytes : Nat := 0
  buffer : CStr := []
  deriving DecidableEq, Repr

def Scan.copy (s : Scan) (c : Char) : Scan :=
  { s with
    phase := .copying
    lineBytes := s.lineBytes + 1
    buffer := if s.lineBytes < IRCD_BUFSIZE - 2 then s.buffer ++ [c] else s.buffer }

/-- The body of the loops; an error is the `return` inside them. -/
def Scan.byte (s : Scan) (c : Char) : Except Scan Scan :=
  if isEol c || (c == ' ' && s.phase != .copying) then
    .ok { s with
      emptyBytes := s.emptyBytes + 1
      phase := if s.phase = .copying then .after else s.phase }
  else
    match s.phase with
    | .before => .ok (s.copy c)
    | .copying => .ok (s.copy c)
    | .after => .error s

/-- `extract_one_line`: the length it returns, the buffer and the queue it leaves. -/
def extractOneLine (q : DbufQueue) : Option (Nat × CStr × DbufQueue) :=
  match q.blocks.foldlM (fun s block => block.data.foldlM Scan.byte s) ({} : Scan) with
  | .error s =>
    (dbufDelete q (s.lineBytes + s.emptyBytes)).map fun q' =>
      (min s.lineBytes (IRCD_BUFSIZE - 2), s.buffer, q')
  | .ok s =>
    -- a line that is not over yet stays
    let lineBytes := if s.phase = .after then s.lineBytes else 0
    (dbufDelete q (lineBytes + s.emptyBytes)).map fun q' =>
      (min lineBytes (IRCD_BUFSIZE - 2), s.buffer, q')

/-! ### The queue as a list of bytes -/

namespace DbufQueue

/-- `total_size` is right. -/
def Counted (q : DbufQueue) : Prop := q.totalSize = q.bytes.length

end DbufQueue

@[simp] theorem DbufBlock.data_empty : DbufBlock.empty.data = [] := rfl

@[simp] theorem DbufBlock.data_add (b : DbufBlock) (s : CStr) :
    (b.add s).data = b.data ++ s.take b.room := rfl

@[simp] theorem DbufBlock.data_remove (b : DbufBlock) (n : Nat) :
    (b.remove n).data = b.data.drop n := rfl

theorem putLoop_spec (front : List DbufBlock) (last : DbufBlock) (total : Nat) (data : CStr) :
    (putLoop front last total data).bytes = front.flatMap DbufBlock.data ++ last.data ++ data ∧
      (putLoop front last total data).totalSize = total + data.length := by
  fun_induction putLoop front last total data with
  | case1 front last total data next amount hdone =>
    have hbytes := withRoom_bytes front last
    have hle : amount ≤ next.2.room := Nat.min_le_left ..
    simp only [drop_eq_nil_iff] at hdone
    have hamount : amount = data.length := Nat.le_antisymm (Nat.min_le_right ..) hdone
    refine ⟨?_, by rw [hamount]⟩
    rw [← hbytes]
    simp [DbufQueue.bytes, next, take_of_length_le (hamount ▸ hle)]
  | case2 front last total data next amount hrest ih =>
    have htake : data.take next.2.room ++ data.drop amount = data := by
      have : amount = next.2.room := by
        simp only [drop_eq_nil_iff, not_le] at hrest
        omega
      rw [this, take_append_drop]
    obtain ⟨hbytes, htotal⟩ := ih
    constructor
    · rw [hbytes, ← withRoom_bytes front last]
      simp [htake, next]
    · rw [htotal, length_drop]
      have : amount ≤ data.length := Nat.min_le_right ..
      omega

theorem bytes_dbufPut (q : DbufQueue) (data : CStr) : (dbufPut q data).bytes = q.bytes ++ data := by
  unfold dbufPut
  cases h : q.blocks.getLast? with
  | none =>
    rw [getLast?_eq_none_iff] at h
    rw [(putLoop_spec ..).1]
    simp [DbufQueue.bytes, h]
  | some last =>
    rw [(putLoop_spec ..).1, DbufQueue.bytes]
    conv_rhs => rw [← dropLast_append_getLast? last h]
    simp

theorem counted_dbufPut {q : DbufQueue} (h : q.Counted) (data : CStr) :
    (dbufPut q data).Counted := by
  have : (dbufPut q data).totalSize = q.totalSize + data.length := by
    unfold dbufPut
    split
    · exact (putLoop_spec ..).2
    · exact (putLoop_spec ..).2
  rw [DbufQueue.Counted, this, bytes_dbufPut, length_append, h]

theorem deleteLoop_spec (total : Nat) (blocks : List DbufBlock) (count : Nat)
    (hcount : count ≤ (blocks.flatMap DbufBlock.data).length) :
    ∃ q, deleteLoop total blocks count = some q ∧
      q.bytes = (blocks.flatMap DbufBlock.data).drop count ∧ q.totalSize = total - count := by
  fun_induction deleteLoop total blocks count with
  | case1 total blocks => exact ⟨_, rfl, rfl, rfl⟩
  | case2 total count => simp at hcount
  | case3 total first rest count hlt =>
    refine ⟨_, rfl, ?_, rfl⟩
    simp only [DbufQueue.bytes, flatMap_cons, DbufBlock.data_remove]
    rw [drop_append_of_le_length (Nat.le_of_lt hlt)]
  | case4 total first rest count hle ih =>
    simp only [flatMap_cons, length_append] at hcount
    obtain ⟨q, hq, hbytes, htotal⟩ := ih (by unfold DbufBlock.size at hle ⊢; omega)
    refine ⟨q, hq, ?_, by omega⟩
    rw [hbytes, flatMap_cons, drop_append, drop_of_length_le
      (Nat.le_of_not_lt hle)]
    rfl

theorem dbufDelete_spec {q : DbufQueue} (h : q.Counted) {count : Nat}
    (hcount : count ≤ q.bytes.length) :
    ∃ q', dbufDelete q count = some q' ∧ q'.bytes = q.bytes.drop count ∧ q'.Counted := by
  obtain ⟨q', hq, hbytes, htotal⟩ := deleteLoop_spec q.totalSize q.blocks count hcount
  refine ⟨q', ?_, hbytes, ?_⟩
  · rw [dbufDelete, if_pos (h ▸ hcount), hq]
  · rw [DbufQueue.Counted, htotal, hbytes, h, DbufQueue.bytes, length_drop]

/-! ### What the loops find -/

/-- The bytes skipped in front of a line and behind its end. -/
def isEmptyByte (c : Char) : Bool := isEol c || c == ' '

theorem scan_blocks (s : Scan) (blocks : List DbufBlock) :
    blocks.foldlM (fun s block => block.data.foldlM Scan.byte s) s =
      (blocks.flatMap DbufBlock.data).foldlM Scan.byte s := by
  induction blocks generalizing s with
  | nil => rfl
  | cons block rest ih =>
    rw [foldlM_cons, flatMap_cons, foldlM_append]
    exact bind_congr fun s' => ih s'

theorem scan_before (e : Nat) (skipped rest : CStr) (h : ∀ c ∈ skipped, isEmptyByte c = true) :
    (skipped ++ rest).foldlM Scan.byte ⟨.before, 0, e, []⟩ =
      rest.foldlM Scan.byte ⟨.before, 0, e + skipped.length, []⟩ := by
  induction skipped generalizing e with
  | nil => rfl
  | cons c skipped ih =>
    have hc : isEol c || (c == ' ' && (Phase.before != .copying)) := by
      simpa [isEmptyByte] using h c (by simp)
    rw [cons_append, foldlM_cons]
    have hstep : Scan.byte ⟨.before, 0, e, []⟩ c = .ok ⟨.before, 0, e + 1, []⟩ := by
      rw [Scan.byte, if_pos hc]
      rfl
    rw [hstep]
    refine (ih (e + 1) fun d hd => h d (by simp [hd])).trans ?_
    rw [length_cons, Nat.add_right_comm, Nat.add_assoc]

theorem scan_copying (n e : Nat) (buffer line rest : CStr) (h : ∀ c ∈ line, isEol c = false) :
    (line ++ rest).foldlM Scan.byte ⟨.copying, n, e, buffer⟩ =
      rest.foldlM Scan.byte
        ⟨.copying, n + line.length, e, buffer ++ line.take (IRCD_BUFSIZE - 2 - n)⟩ := by
  induction line generalizing n buffer with
  | nil => simp
  | cons c line ih =>
    have hstep : Scan.byte ⟨.copying, n, e, buffer⟩ c =
        .ok ⟨.copying, n + 1, e, if n < IRCD_BUFSIZE - 2 then buffer ++ [c] else buffer⟩ := by
      simp [Scan.byte, h c (by simp), Scan.copy]
    rw [cons_append, foldlM_cons, hstep]
    refine (ih _ _ fun d hd => h d (by simp [hd])).trans ?_
    have hlength : n + 1 + line.length = n + (c :: line).length := by
      rw [length_cons]
      omega
    have hbuffer : (if n < IRCD_BUFSIZE - 2 then buffer ++ [c] else buffer) ++
        line.take (IRCD_BUFSIZE - 2 - (n + 1)) = buffer ++ (c :: line).take
          (IRCD_BUFSIZE - 2 - n) := by
      by_cases hn : n < IRCD_BUFSIZE - 2
      · obtain ⟨k, hk⟩ := Nat.exists_eq_add_of_lt hn
        have h₁ : IRCD_BUFSIZE - 2 - (n + 1) = k := by omega
        have h₂ : IRCD_BUFSIZE - 2 - n = k + 1 := by omega
        rw [if_pos hn, h₁, h₂, take_succ_cons, append_assoc, singleton_append]
      · have h₁ : IRCD_BUFSIZE - 2 - (n + 1) = 0 := by omega
        have h₂ : IRCD_BUFSIZE - 2 - n = 0 := by omega
        rw [if_neg hn, h₁, h₂, take_zero, take_zero]
    rw [hlength, hbuffer]

theorem scan_after (n e : Nat) (buffer skipped rest : CStr)
    (h : ∀ c ∈ skipped, isEmptyByte c = true) :
    (skipped ++ rest).foldlM Scan.byte ⟨.after, n, e, buffer⟩ =
      rest.foldlM Scan.byte ⟨.after, n, e + skipped.length, buffer⟩ := by
  induction skipped generalizing e with
  | nil => rfl
  | cons c skipped ih =>
    have hc : isEol c || (c == ' ' && (Phase.after != .copying)) := by
      simpa [isEmptyByte] using h c (by simp)
    have hstep : Scan.byte ⟨.after, n, e, buffer⟩ c = .ok ⟨.after, n, e + 1, buffer⟩ := by
      rw [Scan.byte, if_pos hc]
      rfl
    rw [cons_append, foldlM_cons, hstep]
    refine (ih (e + 1) fun d hd => h d (by simp [hd])).trans ?_
    rw [length_cons, Nat.add_right_comm, Nat.add_assoc]

theorem scan_first (e : Nat) (c : Char) (h : isEmptyByte c = false) :
    Scan.byte ⟨.before, 0, e, []⟩ c = .ok ⟨.copying, 1, e, [c]⟩ := by
  simp only [isEmptyByte, Bool.or_eq_false_iff] at h
  simp [Scan.byte, h.1, h.2, Scan.copy, IRCD_BUFSIZE]

theorem scan_eol (n e : Nat) (buffer : CStr) (c : Char) (h : isEol c = true) :
    Scan.byte ⟨.copying, n, e, buffer⟩ c = .ok ⟨.after, n, e + 1, buffer⟩ := by
  simp [Scan.byte, h]

theorem scan_next (n e : Nat) (buffer : CStr) (c : Char) (h : isEmptyByte c = false) :
    Scan.byte ⟨.after, n, e, buffer⟩ c = .error ⟨.after, n, e, buffer⟩ := by
  simp only [isEmptyByte, Bool.or_eq_false_iff] at h
  simp [Scan.byte, h.1, h.2]

theorem scan_partial (skipped line : CStr) (hs : ∀ c ∈ skipped, isEmptyByte c = true)
    (hl : ∀ c ∈ line, isEol c = false) (hhead : ∀ c ∈ line.head?, isEmptyByte c = false) :
    ∃ s : Scan, (skipped ++ line).foldlM Scan.byte {} = .ok s ∧ s.phase ≠ .after ∧
      s.emptyBytes = skipped.length := by
  have hskip := scan_before 0 skipped line hs
  rw [Nat.zero_add] at hskip
  cases line with
  | nil => exact ⟨_, hskip, by simp, rfl⟩
  | cons c line =>
    rw [foldlM_cons, scan_first _ c (hhead c rfl)] at hskip
    have hcopy := scan_copying 1 skipped.length [c] line [] fun d hd => hl d (by simp [hd])
    rw [append_nil] at hcopy
    exact ⟨_, hskip.trans hcopy, by simp, rfl⟩

theorem scan_line (skipped line ends rest : CStr) (hs : ∀ c ∈ skipped, isEmptyByte c = true)
    (hl : ∀ c ∈ line, isEol c = false) (hhead : ∀ c ∈ line.head?, isEmptyByte c = false)
    (hne : line ≠ []) (he : ∀ c ∈ ends.head?, isEol c = true) (hends : ends ≠ [])
    (hskip : ∀ c ∈ ends, isEmptyByte c = true) (hrest : ∀ c ∈ rest.head?, isEmptyByte c = false) :
    let s : Scan := ⟨.after, line.length, skipped.length + ends.length,
      line.take (IRCD_BUFSIZE - 2)⟩
    (skipped ++ (line ++ (ends ++ rest))).foldlM Scan.byte {} = .ok s ∨
      (skipped ++ (line ++ (ends ++ rest))).foldlM Scan.byte {} = .error s := by
  intro s
  have hbefore := scan_before 0 skipped (line ++ (ends ++ rest)) hs
  rw [Nat.zero_add] at hbefore
  obtain ⟨c, line, rfl⟩ := exists_cons_of_ne_nil hne
  obtain ⟨d, ends, rfl⟩ := exists_cons_of_ne_nil hends
  rw [cons_append, foldlM_cons, scan_first _ c (hhead c rfl)] at hbefore
  have hcopy := scan_copying 1 skipped.length [c] line (d :: ends ++ rest)
    fun x hx => hl x (by simp [hx])
  rw [cons_append, foldlM_cons, scan_eol _ _ _ d (he d rfl)] at hcopy
  have hafter := scan_after (1 + line.length) (skipped.length + 1)
    ([c] ++ line.take (IRCD_BUFSIZE - 2 - 1)) ends rest fun x hx => hskip x (by simp [hx])
  have hstate : (⟨.after, 1 + line.length, skipped.length + 1 + ends.length,
      [c] ++ line.take (IRCD_BUFSIZE - 2 - 1)⟩ : Scan) = s := by
    simp only [s, length_cons, Scan.mk.injEq, true_and, IRCD_BUFSIZE]
    exact ⟨Nat.add_comm .., by omega, rfl⟩
  have hall := (hbefore.trans hcopy).trans hafter
  rw [hstate] at hall
  cases rest with
  | nil => exact .inl hall
  | cons x rest =>
    rw [foldlM_cons, scan_next _ _ _ x (hrest x rfl)] at hall
    exact .inr hall

/-! ### The reference split -/

/-- The lines of a byte stream: what stands in front of a line end, without the
blanks before it and cut to the buffer, where anything is left. -/
def refLines (stream : CStr) : List CStr :=
  (((stream.splitOnP isEol).dropLast.map (·.dropWhile (· == ' '))).filter (· ≠ [])).map
    (·.take (IRCD_BUFSIZE - 2))

/-- What stands behind the last line end, without the blanks before it. -/
def refRest (stream : CStr) : CStr := (stream.rtakeWhile (!isEol ·)).dropWhile (· == ' ')

theorem refRest_suffix (stream : CStr) : refRest stream <:+ stream :=
  (dropWhile_suffix _).trans (rtakeWhile_suffix ..)

theorem refRest_eol (line stream : CStr) (c : Char) (hc : isEol c = true) :
    refRest (line ++ c :: stream) = refRest stream := by
  have hback : (line ++ c :: stream).reverse.takeWhile (!isEol ·) =
      stream.reverse.takeWhile (!isEol ·) := by
    rw [reverse_append, reverse_cons, append_assoc, takeWhile_append]
    split
    · rename_i hall
      rw [(List.takeWhile_prefix _).eq_of_length hall]
      simp [hc]
    · rfl
  rw [refRest, refRest, List.rtakeWhile, List.rtakeWhile, hback]

theorem refRest_blank (stream : CStr) : refRest (' ' :: stream) = refRest stream := by
  unfold refRest List.rtakeWhile
  rw [reverse_cons, takeWhile_append]
  split
  · rename_i hall
    rw [(List.takeWhile_prefix _).eq_of_length hall]
    simp [isEol]
  · rfl

theorem refLines_skip_one (c : Char) (stream : CStr) (h : isEmptyByte c = true) :
    refLines (c :: stream) = refLines stream := by
  obtain ⟨piece, pieces, hsplit⟩ := exists_cons_of_ne_nil (splitOnP_ne_nil isEol stream)
  unfold refLines
  rw [splitOnP_cons_eq_if_modifyHead, hsplit]
  by_cases hc : isEol c = true
  · simp [hc]
  · have hblank : c = ' ' := by simpa [isEmptyByte, hc] using h
    cases pieces with
    | nil => simp [hc]
    | cons next pieces => simp [hblank, isEol]

theorem ref_skip (skipped stream : CStr) (h : ∀ c ∈ skipped, isEmptyByte c = true) :
    refLines (skipped ++ stream) = refLines stream ∧ refRest (skipped ++ stream) = refRest
      stream := by
  induction skipped with
  | nil => exact ⟨rfl, rfl⟩
  | cons c skipped ih =>
    have hc := h c (by simp)
    obtain ⟨hlines, hrest⟩ := ih fun d hd => h d (by simp [hd])
    refine ⟨(refLines_skip_one c _ hc).trans hlines, ?_⟩
    rw [← hrest]
    by_cases heol : isEol c = true
    · exact refRest_eol [] _ c heol
    · have hblank : c = ' ' := by simpa [isEmptyByte, heol] using hc
      rw [hblank]
      exact refRest_blank _

theorem refLines_line (line stream : CStr) (c : Char) (hl : ∀ d ∈ line, isEol d = false)
    (hhead : ∀ d ∈ line.head?, isEmptyByte d = false) (hne : line ≠ []) (hc : isEol c = true) :
    refLines (line ++ c :: stream) = line.take (IRCD_BUFSIZE - 2) :: refLines stream := by
  have hsplit : (line ++ c :: stream).splitOnP isEol = line :: stream.splitOnP isEol :=
    splitOnP_append_cons_of_forall_mem hl c hc stream
  have hdrop : line.dropWhile (· == ' ') = line := by
    obtain ⟨d, line, rfl⟩ := exists_cons_of_ne_nil hne
    have := hhead d rfl
    simp only [isEmptyByte, Bool.or_eq_false_iff] at this
    simp [this.2]
  obtain ⟨piece, pieces, hpieces⟩ := exists_cons_of_ne_nil (splitOnP_ne_nil isEol stream)
  unfold refLines
  rw [hsplit, hpieces, dropLast_cons_cons, ← hpieces]
  simp [hdrop, hne]

theorem refLines_partial (line : CStr) (hl : ∀ d ∈ line, isEol d = false) : refLines line = [] := by
  simp [refLines, splitOnP_eq_singleton hl]

/-! ### One call -/

theorem split_skipped (stream : CStr) : ∃ skipped rest, stream = skipped ++ rest ∧
    (∀ c ∈ skipped, isEmptyByte c = true) ∧ ∀ c ∈ rest.head?, isEmptyByte c = false := by
  refine ⟨stream.takeWhile isEmptyByte, stream.dropWhile isEmptyByte,
    List.takeWhile_append_dropWhile.symm, fun c hc => mem_takeWhile_imp hc, fun c hc => ?_⟩
  have hne : stream.dropWhile isEmptyByte ≠ [] := by
    rintro h
    simp [h] at hc
  have hhead : (stream.dropWhile isEmptyByte).head hne = c := by
    rw [head?_eq_some_head hne] at hc
    exact Option.some.inj hc
  exact hhead ▸ head_dropWhile_not isEmptyByte hne

theorem split_line (stream : CStr) : ∃ line rest, stream = line ++ rest ∧
    (∀ c ∈ line, isEol c = false) ∧ ∀ c ∈ rest.head?, isEol c = true := by
  refine ⟨stream.takeWhile (!isEol ·), stream.dropWhile (!isEol ·),
    List.takeWhile_append_dropWhile.symm, fun c hc => ?_, fun c hc => ?_⟩
  · simpa using mem_takeWhile_imp hc
  · have hne : stream.dropWhile (!isEol ·) ≠ [] := by
      rintro h
      simp [h] at hc
    have hhead : (stream.dropWhile (!isEol ·)).head hne = c := by
      rw [head?_eq_some_head hne] at hc
      exact Option.some.inj hc
    have := head_dropWhile_not (!isEol ·) hne
    rw [hhead] at this
    simpa using this

/-- What one call returns and leaves: it takes the next line off, or finds none
and takes off only what stands in front of the beginning of a line. -/
theorem extract_one_line_eq {q : DbufQueue} (h : q.Counted) :
    ∃ length buffer q', extractOneLine q = some (length, buffer, q') ∧ q'.Counted ∧
      q'.bytes <:+ q.bytes ∧
      (∀ more, refRest (q.bytes ++ more) = refRest (q'.bytes ++ more)) ∧
      ((length = 0 ∧ refLines q.bytes = [] ∧
          ∀ more, refLines (q.bytes ++ more) = refLines (q'.bytes ++ more)) ∨
        (length ≠ 0 ∧ buffer.length = length ∧
          ∀ more, refLines (q.bytes ++ more) = buffer :: refLines (q'.bytes ++ more))) := by
  obtain ⟨skipped, start, hbytes, hskipped, hstart⟩ := split_skipped q.bytes
  obtain ⟨line, tail, hsplit, hline, htail⟩ := split_line start
  rw [hsplit] at hbytes hstart
  unfold extractOneLine
  rw [scan_blocks]
  change ∃ length buffer q', (match q.bytes.foldlM Scan.byte {} with | .error s => _ | .ok s => _) =
    some (length, buffer, q') ∧ _
  cases tail with
  | nil =>
    rw [append_nil] at hbytes hstart
    obtain ⟨s, hscan, hphase, hempty⟩ := scan_partial skipped line hskipped hline hstart
    have hfits : skipped.length ≤ q.bytes.length := by simp [hbytes]
    obtain ⟨q', hdelete, hq', hcounted⟩ := dbufDelete_spec h hfits
    rw [hbytes, drop_left] at hq'
    refine ⟨0, s.buffer, q', ?_, hcounted, ⟨skipped, by rw [hbytes, hq']⟩, fun more => ?_,
      .inl ⟨rfl, ?_, fun more => ?_⟩⟩
    · rw [← hbytes] at hscan
      rw [hscan]
      simp [hphase, hempty, hdelete]
    · rw [hbytes, hq', append_assoc]
      exact (ref_skip skipped _ hskipped).2
    · rw [hbytes, (ref_skip skipped _ hskipped).1, refLines_partial line hline]
    · rw [hbytes, hq', append_assoc]
      exact (ref_skip skipped _ hskipped).1
  | cons c tail =>
    have hc := htail c rfl
    have hne : line ≠ [] := by
      rintro rfl
      have := hstart c rfl
      simp [isEmptyByte, hc] at this
    have hhead : ∀ d ∈ line.head?, isEmptyByte d = false := by
      obtain ⟨d, line, rfl⟩ := exists_cons_of_ne_nil hne
      exact hstart
    obtain ⟨ends, rest, hends, hskip, hrest⟩ := split_skipped tail
    have hscan := scan_line skipped line (c :: ends) rest hskipped hline hhead hne
      (by simpa using hc) nofun (by simpa [isEmptyByte, hc] using hskip) hrest
    have hbytes' : q.bytes = skipped ++ (line ++ (c :: ends ++ rest)) := by
      rw [hbytes, hends, cons_append]
    have hfits : line.length + (skipped.length + (c :: ends).length) ≤ q.bytes.length := by
      simp only [hbytes', length_append]
      omega
    obtain ⟨q', hdelete, hq', hcounted⟩ := dbufDelete_spec h hfits
    have hdrop : q'.bytes = rest := by
      rw [hq', hbytes']
      have : line.length + (skipped.length + (c :: ends).length) =
          (skipped ++ line ++ (c :: ends)).length := by
        simp
        omega
      rw [this, ← append_assoc, ← append_assoc, drop_left]
    have hpos : line.length ≠ 0 := by simpa using hne
    refine ⟨min line.length (IRCD_BUFSIZE - 2), line.take (IRCD_BUFSIZE - 2), q', ?_, hcounted,
      ⟨skipped ++ (line ++ (c :: ends)), by simp [hbytes', hdrop]⟩, fun more => ?_,
      .inr ⟨?_, ?_, fun more => ?_⟩⟩
    · rw [← hbytes'] at hscan
      rcases hscan with hscan | hscan <;> simp only [hscan, if_true, hdelete, Option.map_some]
    · rw [hbytes', hdrop, append_assoc, (ref_skip skipped _ hskipped).2]
      simp only [cons_append, append_assoc]
      rw [refRest_eol line _ c hc, (ref_skip ends _ hskip).2]
    · simp only [IRCD_BUFSIZE]
      omega
    · rw [length_take, Nat.min_comm]
    · rw [hbytes', hdrop, append_assoc, (ref_skip skipped _ hskipped).1]
      simp only [cons_append, append_assoc]
      rw [refLines_line line _ c hline hhead hne hc, (ref_skip ends _ hskip).1]

/-! ### Runs -/

/-- What happens to a receive queue. -/
inductive QueueOp
  | put (data : CStr)
  | extract
  deriving DecidableEq, Repr

/-- A receive queue with what went in and what came out. -/
structure Intake where
  queue : DbufQueue := .empty
  received : CStr := []
  extracted : List CStr := []

/-- One call; a call that returns 0 extracts nothing. -/
def Intake.step (s : Intake) : QueueOp → Option Intake
  | .put data => some { s with queue := dbufPut s.queue data, received := s.received ++ data }
  | .extract =>
    (extractOneLine s.queue).map fun (length, buffer, q) =>
      { s with
        queue := q
        extracted := if length = 0 then s.extracted else s.extracted ++ [buffer.take length] }

/-- What a run keeps: whatever arrives later, the lines taken and those still to
come are the lines of the whole stream. -/
structure Intake.Exact (s : Intake) : Prop where
  counted : s.queue.Counted
  suffix : s.queue.bytes <:+ s.received
  lines : ∀ more, refLines (s.received ++ more) = s.extracted ++ refLines (s.queue.bytes ++ more)
  rest : ∀ more, refRest (s.received ++ more) = refRest (s.queue.bytes ++ more)

theorem Intake.exact_start : Intake.Exact {} :=
  ⟨rfl, suffix_rfl, fun _ => rfl, fun _ => rfl⟩

theorem Intake.Exact.step {s : Intake} (h : s.Exact) (op : QueueOp) :
    ∃ s', s.step op = some s' ∧ s'.Exact := by
  cases op with
  | put data =>
    refine ⟨_, rfl, counted_dbufPut h.counted data, ?_, fun more => ?_, fun more => ?_⟩
    · obtain ⟨gone, hgone⟩ := h.suffix
      exact ⟨gone, by rw [bytes_dbufPut, ← hgone, append_assoc]⟩
    · rw [bytes_dbufPut, append_assoc, append_assoc, h.lines]
    · rw [bytes_dbufPut, append_assoc, append_assoc, h.rest]
  | extract =>
    obtain ⟨length, buffer, q, hextract, hcounted, hsuffix, hrest, hline⟩ :=
      extract_one_line_eq h.counted
    refine ⟨⟨q, s.received, if length = 0 then s.extracted else s.extracted ++
      [buffer.take length]⟩,
      by rw [Intake.step, hextract]; rfl, hcounted, hsuffix.trans h.suffix, fun more => ?_,
      fun more => (h.rest more).trans (hrest more)⟩
    rcases hline with ⟨hzero, -, hlines⟩ | ⟨hpos, hlength, hlines⟩
    · simp only [hzero, if_true]
      rw [h.lines, hlines]
    · simp only [hpos, if_false]
      rw [h.lines, hlines, ← hlength, take_length, append_assoc, singleton_append]

theorem Intake.Exact.run {s : Intake} (h : s.Exact) (ops : List QueueOp) :
    ∃ s', ops.foldlM Intake.step s = some s' ∧ s'.Exact := by
  induction ops generalizing s with
  | nil => exact ⟨s, rfl, h⟩
  | cons op ops ih =>
    obtain ⟨s', hstep, hs'⟩ := h.step op
    obtain ⟨t, hrun, ht⟩ := ih hs'
    exact ⟨t, by rw [foldlM_cons, hstep]; exact hrun, ht⟩

def putBytes : List QueueOp → CStr
  | [] => []
  | .put data :: ops => data ++ putBytes ops
  | .extract :: ops => putBytes ops

theorem received_run {ops : List QueueOp} {s t : Intake} (h : ops.foldlM Intake.step s = some t) :
    t.received = s.received ++ putBytes ops := by
  induction ops generalizing s with
  | nil =>
    obtain rfl : s = t := Option.some.inj h
    exact (append_nil _).symm
  | cons op ops ih =>
    rw [foldlM_cons] at h
    obtain ⟨s', hstep, hrun⟩ := Option.bind_eq_some_iff.mp h
    rw [ih hrun]
    cases op with
    | put data =>
      obtain rfl := Option.some.inj hstep
      simp [putBytes]
    | extract =>
      obtain ⟨out, -, rfl⟩ := Option.map_eq_some_iff.mp hstep
      rfl

/-- However a byte stream is put into the queue and lines are taken off between,
no call fails, the lines taken are the first of the stream's lines, the next
call finds none exactly when all of them are taken, and what stands behind the
last line end is still in the queue. -/
theorem extracted_lines (ops : List QueueOp) :
    ∃ s, ops.foldlM Intake.step {} = some s ∧
      s.extracted ++ refLines s.queue.bytes = refLines (putBytes ops) ∧
      s.queue.bytes <:+ putBytes ops ∧ refRest (putBytes ops) <:+ s.queue.bytes ∧
      ∃ length buffer q, extractOneLine s.queue = some (length, buffer, q) ∧
        (length = 0 ↔ s.extracted = refLines (putBytes ops)) ∧
        (length ≠ 0 → s.extracted ++ [buffer.take length] <+: refLines (putBytes ops)) := by
  obtain ⟨s, hrun, hs⟩ := Intake.exact_start.run ops
  have hreceived := received_run hrun
  rw [nil_append] at hreceived
  have hlines := hs.lines []
  have hrest := hs.rest []
  simp only [append_nil] at hlines hrest
  refine ⟨s, hrun, ?_, hreceived ▸ hs.suffix, ?_, ?_⟩
  · rw [← hreceived, hlines]
  · rw [← hreceived, hrest]
    exact refRest_suffix _
  · obtain ⟨length, buffer, q, hextract, -, -, -, hline⟩ := extract_one_line_eq hs.counted
    refine ⟨length, buffer, q, hextract, ?_, fun hne => ?_⟩
    · rw [← hreceived, hlines]
      rcases hline with ⟨hzero, hnone, -⟩ | ⟨hpos, -, hcut⟩
      · simp [hzero, hnone]
      · have := hcut []
        simp only [append_nil] at this
        simp [hpos, this]
    · rw [← hreceived, hlines]
      rcases hline with ⟨hzero, -, -⟩ | ⟨-, hlength, hcut⟩
      · exact absurd hzero hne
      · have := hcut []
        simp only [append_nil] at this
        rw [this, ← hlength, take_length]
        exact ⟨refLines q.bytes, by simp⟩

/-! ### A FIFO of bytes -/

/-- The calls; `dbuf_put` asserts that there are bytes to put. -/
inductive DbufOp where
  | put (data : CStr) (ne : data ≠ [])
  | delete (count : Nat)

namespace DbufQueue

/-- One call; `none` is a failed assertion. -/
def call (q : DbufQueue) : DbufOp → Option DbufQueue
  | .put data _ => some (dbufPut q data)
  | .delete count => dbufDelete q count

/-- `total_size` is the sum of the sizes, and no block is empty or larger than it can be. -/
structure Sound (q : DbufQueue) : Prop where
  total : q.totalSize = (q.blocks.map DbufBlock.size).sum
  filled : ∀ b ∈ q.blocks, 0 < b.size
  fits : ∀ b ∈ q.blocks, b.size ≤ DBUF_BLOCK_SIZE

end DbufQueue

/-- A call on the bytes alone; no more can be deleted than is there. -/
def fifoCall (s : CStr) : DbufOp → Option CStr
  | .put data _ => some (s ++ data)
  | .delete count => if count ≤ s.length then some (s.drop count) else none

theorem withRoom_filled {front : List DbufBlock} (hfront : ∀ b ∈ front, 0 < b.size)
    (last : DbufBlock) : ∀ b ∈ (withRoom front last).1, 0 < b.size := by
  unfold withRoom
  split
  · next hroom =>
      intro b hb
      rcases List.mem_append.mp hb with hb | hb
      · exact hfront b hb
      · have hfull : DBUF_BLOCK_SIZE ≤ last.size := Nat.sub_eq_zero_iff_le.mp hroom
        rw [List.mem_singleton.mp hb]
        exact Nat.lt_of_lt_of_le (by decide) hfull
  · exact hfront

theorem size_add_pos {b : DbufBlock} (hroom : 0 < b.room) {data : CStr} (hdata : data ≠ []) :
    0 < (b.add data).size := by
  have hpos := length_pos_of_ne_nil hdata
  rw [DbufBlock.size, DbufBlock.data_add, length_append, length_take]
  omega

theorem putLoop_filled (front : List DbufBlock) (last : DbufBlock) (total : Nat) {data : CStr}
    (hdata : data ≠ []) (hfront : ∀ b ∈ front, 0 < b.size) :
    ∀ b ∈ (putLoop front last total data).blocks, 0 < b.size := by
  fun_induction putLoop front last total data with
  | case1 front last total data next amount hdone =>
    intro b hb
    rcases List.mem_append.mp hb with hb | hb
    · exact withRoom_filled hfront last b hb
    · rw [List.mem_singleton.mp hb]
      exact size_add_pos (withRoom_room front last) hdata
  | case2 front last total data next amount hrest ih =>
    exact ih hrest (withRoom_filled hfront last)

theorem filled_dbufPut {q : DbufQueue} (h : ∀ b ∈ q.blocks, 0 < b.size) {data : CStr}
    (hdata : data ≠ []) : ∀ b ∈ (dbufPut q data).blocks, 0 < b.size := by
  unfold dbufPut
  split
  · exact putLoop_filled _ _ _ hdata fun b hb => absurd hb not_mem_nil
  · exact putLoop_filled _ _ _ hdata fun b hb => h b ((dropLast_sublist _).subset hb)

theorem deleteLoop_filled (total : Nat) {blocks : List DbufBlock} (count : Nat) {q : DbufQueue}
    (h : ∀ b ∈ blocks, 0 < b.size) (hq : deleteLoop total blocks count = some q) :
    ∀ b ∈ q.blocks, 0 < b.size := by
  fun_induction deleteLoop total blocks count with
  | case1 total blocks =>
    cases hq
    exact h
  | case2 total count => cases hq
  | case3 total first rest count hlt =>
    cases hq
    intro b hb
    rcases List.mem_cons.mp hb with rfl | hb
    · rw [DbufBlock.size, DbufBlock.data_remove, length_drop]
      exact Nat.sub_pos_of_lt hlt
    · exact h b (mem_cons_of_mem _ hb)
  | case4 total first rest count hle ih => exact ih (fun b hb => h b (mem_cons_of_mem _ hb)) hq

theorem sum_sizes (blocks : List DbufBlock) :
    (blocks.map DbufBlock.size).sum = (blocks.flatMap DbufBlock.data).length := by
  rw [length_flatMap]
  rfl

theorem DbufQueue.sound_of_counted {q : DbufQueue} (hcounted : q.Counted)
    (hfilled : ∀ b ∈ q.blocks, 0 < b.size) : q.Sound :=
  ⟨hcounted.trans (sum_sizes q.blocks).symm, hfilled, fun b _ => b.fits⟩

theorem DbufQueue.Sound.call {q : DbufQueue} (h : q.Sound) (op : DbufOp) :
    (q.call op).map DbufQueue.bytes = fifoCall q.bytes op ∧ ∀ q', q.call op = some q' → q'.Sound := by
  have hcounted : q.Counted := h.total.trans (sum_sizes q.blocks)
  cases op with
  | put data hdata =>
    refine ⟨congrArg some (bytes_dbufPut q data), fun q' hq' => ?_⟩
    cases hq'
    exact sound_of_counted (counted_dbufPut hcounted data) (filled_dbufPut h.filled hdata)
  | delete count =>
    change (dbufDelete q count).map bytes = (if count ≤ q.bytes.length then _ else _) ∧
      ∀ q', dbufDelete q count = some q' → q'.Sound
    by_cases hle : count ≤ q.bytes.length
    · obtain ⟨q', hq', hbytes, hcounted'⟩ := dbufDelete_spec hcounted hle
      rw [hq', if_pos hle, Option.map_some, hbytes]
      refine ⟨rfl, fun q'' hq'' => ?_⟩
      cases hq''
      have hloop : deleteLoop q.totalSize q.blocks count = some q' := by
        rwa [dbufDelete, if_pos (hcounted ▸ hle)] at hq'
      exact sound_of_counted hcounted' (deleteLoop_filled _ _ h.filled hloop)
    · have hnone : dbufDelete q count = none := if_neg (hcounted ▸ hle)
      rw [hnone, if_neg hle]
      exact ⟨rfl, fun q' hq' => by cases hq'⟩

theorem DbufQueue.first_prefix {q : DbufQueue} {first : DbufBlock}
    (h : q.blocks.head? = some first) : first.data <+: q.bytes := by
  obtain ⟨rest, hrest⟩ := List.head?_eq_some_iff.mp h
  rw [DbufQueue.bytes, hrest, flatMap_cons]
  exact prefix_append _ _

/-- In every run of `dbuf_put` and `dbuf_delete` the blocks hold the bytes put without those
deleted from the front, and a call fails just when more is to be deleted than is there. The sizes
are right, no block is empty, and the first one begins with the first byte left. -/
theorem dbuf_refines_fifo (ops : List DbufOp) :
    (ops.foldlM DbufQueue.call .empty).map DbufQueue.bytes = ops.foldlM fifoCall [] ∧
      ∀ q, ops.foldlM DbufQueue.call .empty = some q →
        q.Sound ∧ ∀ first, q.blocks.head? = some first → first.data <+: q.bytes := by
  have hrun : ∀ q : DbufQueue, q.Sound →
      (ops.foldlM DbufQueue.call q).map DbufQueue.bytes = ops.foldlM fifoCall q.bytes ∧
        ∀ q', ops.foldlM DbufQueue.call q = some q' → q'.Sound := by
    induction ops with
    | nil =>
      intro q hq
      refine ⟨rfl, fun q' hq' => ?_⟩
      cases hq'
      exact hq
    | cons op ops ih =>
      intro q hq
      obtain ⟨hbytes, hsound⟩ := hq.call op
      rw [foldlM_cons, foldlM_cons, ← hbytes]
      cases hcall : q.call op with
      | none => exact ⟨rfl, fun q' hq' => by cases hq'⟩
      | some q₁ => exact ih q₁ (hsound q₁ hcall)
  have hempty : DbufQueue.empty.Sound :=
    DbufQueue.sound_of_counted rfl fun b hb => absurd hb not_mem_nil
  obtain ⟨hbytes, hsound⟩ := hrun .empty hempty
  exact ⟨hbytes, fun q hq => ⟨hsound q hq, fun first => DbufQueue.first_prefix⟩⟩

end Ircd
