import Ircd.CsvFiles

/-!
How `fbgets` of `fileio.c` reads lines from a file that `read` delivers in pieces.

A call on the pieces reads what it would read if the whole rest of the file were in the buffer
(`fbgetsLoop_whole`), and a call on the whole rest takes the first piece of its lines off
(`split_fbgetsLoop`). So the calls return the lines of the file, however it is cut
(`fbgets_splits`).
-/

namespace Ircd

open List

namespace FileLines

/-- What one `read` delivers. -/
abbrev Fragment := { bytes : List Char // bytes ≠ [] }

/-- A size of a buffer for a line, which has room for a character and the NUL. -/
abbrev LineSize := { len : Nat // 2 ≤ len }

/-- `FBFILE`: the bytes from `ptr` to `endp`, what the coming calls of `read` deliver, and
`FB_EOF` of the flags. Nothing is pushed back. -/
structure FBFile where
  buffer : List Char
  reads : List Fragment
  eof : Bool

def fbopen (reads : List Fragment) : FBFile := { buffer := [], reads, eof := false }

/-- `fbfill`: what it returns, and the file after it. -/
def fbfill (fb : FBFile) : Int × FBFile :=
  if fb.eof then (-1, fb)
  else
    match fb.reads with
    | [] => (0, { fb with eof := true })
    | bytes :: reads => (bytes.val.length, { fb with buffer := bytes.val, reads })

/-- `fb->ptr < fb->endp || fbfill(fb) > 0`. The other two tests ask for the opposite. -/
def fbready (fb : FBFile) : Bool × FBFile :=
  if fb.buffer ≠ [] then (true, fb)
  else
    let (n, fb) := fbfill fb
    (decide (0 < n), fb)

/-- The loop of `fbgets` with room for `n` characters: what it writes, and the file after it.
`none` is a read at or behind `endp`. -/
def fbgetsLoop : Nat → FBFile → Option (List Char × FBFile)
  | 0, fb => some ([], fb)
  | n + 1, fb =>
    match fb.buffer with
    | [] => none
    | c :: buffer =>
      if c = '\n' then some (['\n'], { fb with buffer })
      else if c = '\r' then
        let (ready, fb) := fbready { fb with buffer }
        if ready ∧ fb.buffer.head? = some '\n' then
          some (['\n'], { fb with buffer := fb.buffer.tail })
        else some (['\n'], fb)
      else
        let (ready, fb) := fbready { fb with buffer }
        if ready then (fbgetsLoop n fb).map fun (text, fb) => (c :: text, fb)
        else some ([c], fb)

/-- `fbgets`: the string before the NUL that it writes last, or NULL. -/
def fbgets (len : Nat) (fb : FBFile) : Option (Option (List Char) × FBFile) :=
  let (ready, fb) := fbready fb
  if ready then (fbgetsLoop (len - 1) fb).map fun (text, fb) => (some text, fb)
  else some (none, fb)

/-- What so many calls return one after the other. -/
def calls (len : Nat) : Nat → FBFile → Option (List (Option (List Char)))
  | 0, _ => some []
  | n + 1, fb => do
    let (line, fb) ← fbgets len fb
    let lines ← calls len n fb
    return line :: lines

/-! ### The lines of a file -/

/-- A text with each of its line ends as one newline. -/
def newlines : List Char → List Char
  | [] => []
  | '\r' :: '\n' :: text => '\n' :: newlines text
  | c :: text => (if c = '\r' then '\n' else c) :: newlines text

/-- The lines of a text, each with its newline; the last one may have none. -/
def linesOf : List Char → List (List Char)
  | [] => []
  | c :: text =>
    if c = '\n' then [c] :: linesOf text
    else
      match linesOf text with
      | [] => [[c]]
      | line :: lines => (c :: line) :: lines

/-- A line in pieces of `size` characters. -/
def pieces (size : Nat) (line : List Char) : List (List Char) :=
  if line = [] ∨ size = 0 then [] else line.take size :: pieces size (line.drop size)
termination_by line.length
decreasing_by
  rename_i h
  rw [not_or] at h
  have := List.length_pos_iff.mpr h.1
  rw [length_drop]
  omega

def split (len : Nat) (content : List Char) : List (List Char) :=
  (linesOf (newlines content)).flatMap (pieces (len - 1))

def firstLine : List Char → List Char
  | [] => []
  | c :: text => if c = '\n' then [c] else c :: firstLine text

theorem linesOf_eq {text : List Char} (h : text ≠ []) :
    linesOf text = firstLine text :: linesOf (text.drop (firstLine text).length) := by
  induction text with
  | nil => exact absurd rfl h
  | cons c text ih =>
    rw [linesOf, firstLine]
    by_cases hc : c = '\n'
    · rw [if_pos hc, if_pos hc]
      rfl
    · rw [if_neg hc, if_neg hc]
      cases text with
      | nil => rfl
      | cons d text => rw [ih (cons_ne_nil _ _), length_cons, drop_succ_cons]

theorem firstLine_drop {text : List Char} {k : Nat} (h : k < (firstLine text).length) :
    firstLine (text.drop k) = (firstLine text).drop k := by
  induction text generalizing k with
  | nil => cases h
  | cons c text ih =>
    cases k with
    | zero => rfl
    | succ k =>
      rw [firstLine] at h ⊢
      by_cases hc : c = '\n'
      · rw [if_pos hc, length_singleton] at h
        omega
      · rw [if_neg hc, length_cons] at h
        rw [if_neg hc, drop_succ_cons, drop_succ_cons]
        exact ih (by omega)

theorem pieces_nil (size : Nat) : pieces size [] = [] := by
  rw [pieces, if_pos (Or.inl rfl)]

theorem pieces_cons {size : Nat} {line : List Char} (hsize : size ≠ 0) (hline : line ≠ []) :
    pieces size line = line.take size :: pieces size (line.drop size) := by
  rw [pieces, if_neg (by simp [hsize, hline])]

theorem flatMap_pieces {size : Nat} (hsize : size ≠ 0) {text : List Char} (h : text ≠ []) :
    (linesOf text).flatMap (pieces size) = (firstLine text).take size ::
      (linesOf (text.drop ((firstLine text).take size).length)).flatMap (pieces size) := by
  have hfirst : firstLine text ≠ [] := by
    cases text with
    | nil => exact absurd rfl h
    | cons c text => rw [firstLine]; split <;> exact cons_ne_nil _ _
  rw [linesOf_eq h, flatMap_cons, pieces_cons hsize hfirst, cons_append,
    length_take]
  congr 1
  by_cases hshort : (firstLine text).length ≤ size
  · rw [Nat.min_eq_right hshort, drop_eq_nil_of_le hshort, pieces_nil, nil_append]
  · -- the line goes on behind its piece
    have hlt : size < (firstLine text).length := Nat.lt_of_not_le hshort
    have hline := firstLine_drop hlt
    have hleft : text.drop size ≠ [] := by
      intro hnil
      rw [hnil] at hline
      have := congrArg List.length hline
      rw [length_drop] at this
      change 0 = _ at this
      omega
    rw [Nat.min_eq_left (Nat.le_of_lt hlt), linesOf_eq hleft, hline, flatMap_cons,
      drop_drop, length_drop, Nat.add_sub_cancel' (Nat.le_of_lt hlt)]

/-! ### A call on the whole rest -/

theorem newlines_return (text : List Char) : newlines ('\r' :: text) =
    '\n' :: newlines (if text.head? = some '\n' then text.tail else text) := by
  cases text with
  | nil => rfl
  | cons c text =>
    by_cases hc : c = '\n'
    · subst hc
      rfl
    · rw [if_neg (by simpa using hc), newlines]
      · rfl
      · intro text' h heq
        exact hc (List.cons.inj heq).1

theorem newlines_other {c : Char} (hc : c ≠ '\r') (text : List Char) :
    newlines (c :: text) = c :: newlines text := by
  rw [newlines, if_neg hc]
  intro text' h
  exact absurd h hc

theorem fbgetsLoop_first (n : Nat) (text : List Char) :
    (Ircd.fbgetsLoop n text).1 = (firstLine (newlines text)).take n ∧
      newlines (Ircd.fbgetsLoop n text).2 =
        (newlines text).drop (Ircd.fbgetsLoop n text).1.length := by
  induction n generalizing text with
  | zero => exact ⟨rfl, rfl⟩
  | succ n ih =>
    cases text with
    | nil => exact ⟨rfl, rfl⟩
    | cons c text =>
      rw [Ircd.fbgetsLoop]
      by_cases hfeed : c = '\n'
      · rw [if_pos hfeed, newlines_other (by rw [hfeed]; decide), firstLine, if_pos hfeed,
          hfeed]
        exact ⟨by rw [take_succ_cons, take_nil], rfl⟩
      · by_cases hreturn : c = '\r'
        · rw [if_neg hfeed, if_pos hreturn, hreturn, newlines_return, firstLine, if_pos rfl]
          exact ⟨by rw [take_succ_cons, take_nil], rfl⟩
        · obtain ⟨htext, hrest⟩ := ih text
          rw [if_neg hfeed, if_neg hreturn, newlines_other hreturn, firstLine, if_neg hfeed]
          exact ⟨congrArg (c :: ·) htext, hrest⟩

theorem split_fbgetsLoop {len : LineSize} {text : List Char} (h : text ≠ []) :
    split len text = (Ircd.fbgetsLoop (len - 1) text).1 ::
      split len (Ircd.fbgetsLoop (len - 1) text).2 := by
  have hsize : len.val - 1 ≠ 0 := Nat.sub_ne_zero_of_lt len.property
  have hne : newlines text ≠ [] := by
    cases text with
    | nil => exact absurd rfl h
    | cons c text =>
      by_cases hc : c = '\r'
      · rw [hc, newlines_return]
        exact cons_ne_nil _ _
      · rw [newlines_other hc]
        exact cons_ne_nil _ _
  obtain ⟨htext, hrest⟩ := fbgetsLoop_first (len - 1) text
  rw [split, split, hrest, htext]
  exact flatMap_pieces hsize hne

/-! ### A call on the fragments -/

def FBFile.content (fb : FBFile) : List Char :=
  fb.buffer ++ (fb.reads.map Subtype.val).flatten

/-- The end of the file has not been seen before all reads. -/
def FBFile.Sound (fb : FBFile) : Prop := fb.eof = true → fb.reads = []

theorem fbready_spec {fb : FBFile} (h : fb.Sound) :
    (fbready fb).2.Sound ∧ (fbready fb).2.content = fb.content ∧
      (((fbready fb).1 = true ∧ (fbready fb).2.buffer ≠ []) ∨
        ((fbready fb).1 = false ∧ fb.content = [])) := by
  unfold fbready
  by_cases hbuffer : fb.buffer = []
  · rw [if_neg (not_not.mpr hbuffer)]
    have hcontent : fb.content = (fb.reads.map Subtype.val).flatten := by
      rw [FBFile.content, hbuffer, nil_append]
    unfold fbfill
    by_cases heof : fb.eof = true
    · rw [if_pos heof]
      rw [h heof] at hcontent
      exact ⟨h, rfl, Or.inr ⟨rfl, hcontent⟩⟩
    · rw [if_neg heof]
      cases hreads : fb.reads with
      | nil =>
        rw [hreads] at hcontent
        refine ⟨fun _ => rfl, ?_, Or.inr ⟨rfl, hcontent⟩⟩
        change fb.buffer ++ [] = fb.content
        rw [hbuffer, hcontent]
        rfl
      | cons bytes reads =>
        have hlength := List.length_pos_iff.mpr bytes.property
        rw [hreads] at hcontent
        exact ⟨fun heof' => absurd heof' heof, hcontent.symm,
          Or.inl ⟨by simpa using hlength, bytes.property⟩⟩
  · rw [if_pos hbuffer]
    exact ⟨h, rfl, Or.inl ⟨rfl, hbuffer⟩⟩

theorem fbgetsLoop_whole (n : Nat) {fb : FBFile} (h : fb.Sound) (hbuffer : fb.buffer ≠ []) :
    ∃ fb' : FBFile, fb'.Sound ∧ fb'.content = (Ircd.fbgetsLoop n fb.content).2 ∧
      fbgetsLoop n fb = some ((Ircd.fbgetsLoop n fb.content).1, fb') := by
  induction n generalizing fb with
  | zero => exact ⟨fb, h, rfl, rfl⟩
  | succ n ih =>
    rw [fbgetsLoop]
    cases hbytes : fb.buffer with
    | nil => exact absurd hbytes hbuffer
    | cons c buffer =>
      have hcontent : fb.content = c :: { fb with buffer : FBFile }.content := by
        rw [FBFile.content, hbytes]
        rfl
      obtain ⟨hsound, hsame, hready⟩ := @fbready_spec { fb with buffer } h
      rw [hcontent, Ircd.fbgetsLoop]
      dsimp only
      by_cases hfeed : c = '\n'
      · rw [if_pos hfeed, if_pos hfeed]
        exact ⟨{ fb with buffer }, h, rfl, rfl⟩
      rw [if_neg hfeed, if_neg hfeed]
      by_cases hreturn : c = '\r'
      · rw [if_pos hreturn, if_pos hreturn]
        rcases hready with ⟨hready, hnext⟩ | ⟨hready, hend⟩
        · have hhead : (fbready { fb with buffer }).2.buffer.head? =
              ({ fb with buffer : FBFile }.content).head? := by
            rw [← hsame, FBFile.content, head?_append_of_ne_nil _ hnext]
          rw [hready, hhead]
          by_cases hskip : ({ fb with buffer : FBFile }.content).head? = some '\n'
          · rw [if_pos hskip, if_pos ⟨rfl, hskip⟩]
            refine ⟨{ (fbready { fb with buffer }).2 with
              buffer := (fbready { fb with buffer }).2.buffer.tail }, hsound, ?_, rfl⟩
            rw [← hsame, FBFile.content, FBFile.content, tail_append_of_ne_nil hnext]
          · rw [if_neg hskip, if_neg fun hboth => hskip hboth.2]
            exact ⟨_, hsound, hsame, rfl⟩
        · have hnone : ¬([] : List Char).head? = some '\n' := (Option.some_ne_none '\n').symm
          rw [hready, hend, if_neg hnone, if_neg fun hboth => Bool.false_ne_true hboth.1]
          exact ⟨_, hsound, by rw [hsame, hend], rfl⟩
      · rw [if_neg hreturn, if_neg hreturn]
        rcases hready with ⟨hready, hnext⟩ | ⟨hready, hend⟩
        · obtain ⟨fb', hsound', hcontent', hloop⟩ := ih hsound hnext
          rw [hsame] at hcontent' hloop
          rw [if_pos hready, hloop]
          exact ⟨fb', hsound', hcontent', rfl⟩
        · rw [hready, if_neg Bool.false_ne_true, hend]
          refine ⟨_, hsound, by rw [hsame, hend]; cases n <;> rfl, ?_⟩
          cases n <;> rfl

theorem fbgets_split (len : LineSize) {fb : FBFile} (h : fb.Sound) :
    ∃ fb' : FBFile, fb'.Sound ∧ split len fb'.content = (split len fb.content).tail ∧
      fbgets len fb = some ((split len fb.content).head?, fb') := by
  obtain ⟨hsound, hsame, ⟨hready, hnext⟩ | ⟨hready, hend⟩⟩ := fbready_spec h
  · obtain ⟨fb', hsound', hcontent', hloop⟩ := fbgetsLoop_whole (len - 1) hsound hnext
    rw [hsame] at hcontent' hloop
    have hne : fb.content ≠ [] := by
      rw [← hsame, FBFile.content]
      exact append_ne_nil_of_left_ne_nil hnext _
    rw [split_fbgetsLoop hne, fbgets]
    dsimp only
    rw [hready, if_pos rfl, hloop]
    exact ⟨fb', hsound', congrArg _ hcontent', rfl⟩
  · rw [fbgets, hend]
    dsimp only
    rw [hready, if_neg Bool.false_ne_true]
    exact ⟨(fbready fb).2, hsound, by rw [hsame, hend]; rfl, rfl⟩

theorem calls_eq (len : LineSize) (n : Nat) {fb : FBFile} (h : fb.Sound) :
    calls len n fb =
      some (((split len fb.content).map some ++ List.replicate n none).take n) := by
  induction n generalizing fb with
  | zero => rfl
  | succ n ih =>
    obtain ⟨fb', hsound, hcontent, hcall⟩ := fbgets_split len h
    rw [calls, hcall]
    dsimp only [bind, Option.bind]
    rw [ih hsound, hcontent]
    cases split len fb.content with
    | nil => rfl
    | cons line lines =>
      have hroom : n ≤ (lines.map some ++ List.replicate n none).length := by
        rw [length_append, length_replicate]
        exact Nat.le_add_left n _
      have htake : (lines.map some ++ List.replicate (n + 1) none).take n =
          (lines.map some ++ List.replicate n none).take n := by
        rw [replicate_succ', ← append_assoc, take_append_of_le_length hroom]
      exact congrArg (fun results => some (some line :: results)) htake.symm

theorem pieces_spec {size : Nat} (hsize : size ≠ 0) (line : List Char) :
    (pieces size line).flatten = line ∧ ∀ piece ∈ pieces size line, piece.length ≤ size := by
  induction h : line.length using Nat.strong_induction_on generalizing line with
  | h length ih =>
    by_cases hline : line = []
    · rw [hline, pieces_nil]
      exact ⟨rfl, fun piece hpiece => absurd hpiece not_mem_nil⟩
    · have hpos := List.length_pos_iff.mpr hline
      have hshort : (line.drop size).length < length := by
        rw [length_drop]
        omega
      obtain ⟨hflatten, hlength⟩ := ih _ hshort (line.drop size) rfl
      rw [pieces_cons hsize hline]
      refine ⟨?_, fun piece hpiece => ?_⟩
      · rw [flatten_cons, hflatten, take_append_drop]
      · rcases List.mem_cons.mp hpiece with rfl | hpiece
        · exact length_take_le size line
        · exact hlength piece hpiece

theorem flatten_linesOf (text : List Char) : (linesOf text).flatten = text := by
  induction text with
  | nil => rfl
  | cons c text ih =>
    rw [linesOf]
    by_cases hc : c = '\n'
    · rw [if_pos hc, flatten_cons, ih]
      rfl
    · rw [if_neg hc]
      cases hlines : linesOf text with
      | nil =>
        rw [hlines] at ih
        rw [← ih]
        rfl
      | cons line lines =>
        rw [hlines, flatten_cons] at ih
        rw [← ih]
        rfl

/-- The calls return the pieces of the lines one after the other, and then NULL, with no read
outside the buffer. No string is longer than its buffer with its NUL, and all of them together are
the text of the file. -/
theorem fbgets_splits (len : LineSize) (reads : List Fragment) (n : Nat) :
    calls len n (fbopen reads) = some (((split len (reads.map Subtype.val).flatten).map some ++
        List.replicate n none).take n) ∧
      (∀ line ∈ split len (reads.map Subtype.val).flatten, line.length + 1 ≤ len.val) ∧
      (split len (reads.map Subtype.val).flatten).flatten =
        newlines (reads.map Subtype.val).flatten := by
  have hsize : len.val - 1 ≠ 0 := Nat.sub_ne_zero_of_lt len.property
  refine ⟨calls_eq len n fun heof => absurd heof Bool.false_ne_true, fun line hline => ?_, ?_⟩
  · obtain ⟨whole, -, hpiece⟩ := List.mem_flatMap.mp hline
    have := (pieces_spec hsize whole).2 line hpiece
    omega
  · have hpieces : ∀ lines : List (List Char),
        (lines.flatMap (pieces (len - 1))).flatten = lines.flatten := by
      intro lines
      induction lines with
      | nil => rfl
      | cons line lines ih =>
        rw [flatMap_cons, flatten_append, (pieces_spec hsize line).1, ih,
          flatten_cons]
    rw [split, hpieces, flatten_linesOf]

end FileLines

end Ircd
