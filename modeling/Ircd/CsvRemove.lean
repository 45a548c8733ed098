import Ircd.CsvFiles

/-!
`remove_conf_line`: a file is copied without the lines that match.

The branch for comments and empty lines writes the line and then goes on as for any other,
so what becomes of a comment depends on the fields that `getfield` reads in it. The file is
right afterwards exactly if no such line, and no other that lacks a field, is in the way
(`remove_conf_line_iff`).
-/

namespace Ircd

open List
open CBuffer

/-! ### The function -/

/-- What the system does for `remove_conf_line`: whether the files are opened, how much of
the file is read before its end or an error, how many characters the `n`-th write takes,
`none` for an error, and whether `rename` works. -/
structure ConfIo where
  openIn : Bool
  openOut : Bool
  readable : Nat
  write : Nat → CStr → Option Nat
  rename : Bool

/-- What is to be removed. -/
structure RemovePats where
  type : CsvType
  pat1 : CStr
  pat2 : Option CStr

/-- `!cmpfunc(s1, s2)`. -/
def RemovePats.cmpEq (pats : RemovePats) (s1 s2 : CStr) : Bool :=
  if pats.type = .rxline ∨ pats.type = .rkline then s1 == s2 else ircEq s1 s2

/-- What the comparison of a line comes to. -/
inductive Found
  | hit
  | miss
  | overrun
  deriving DecidableEq, Repr

/-- The fields of a line are compared with the patterns. -/
def RemovePats.find (pats : RemovePats) (line : CStr) : Found :=
  match getfield line with
  | .overrun => .overrun
  | .null => .miss
  | .field found1 rest =>
    match pats.pat2 with
    | none => if pats.cmpEq pats.pat1 found1 then .hit else .miss
    | some pat2 =>
      match getfield rest with
      | .overrun => .overrun
      | .null => .miss
      | .field found2 _ =>
        if pats.cmpEq pats.pat1 found1 && pats.cmpEq pat2 found2 then .hit else .miss

/-- `out`, with the number of writes, and `pairme`. -/
structure RemoveState where
  out : List Char
  writes : Nat
  pairme : Bool
  deriving DecidableEq, Repr

/-- What the loop comes to: it goes on, a write has failed, or `getfield` has read behind
the end of a line. -/
inductive RemoveRun
  | going (st : RemoveState)
  | failed
  | overrun
  deriving DecidableEq, Repr

/-- `flush_write`: only an error is noticed. -/
def flushWrite (io : ConfIo) (st : RemoveState) (line : CStr) : RemoveRun :=
  match io.write st.writes line with
  | none => .failed
  | some n => .going { st with out := st.out ++ line.take n, writes := st.writes + 1 }

def isComment (line : CStr) : Bool := line.isEmpty || line.head? = some '#'

/-- What follows the branch for comments. -/
def removeFields (io : ConfIo) (pats : RemovePats) (st : RemoveState) (line : CStr) :
    RemoveRun :=
  match pats.find line with
  | .overrun => .overrun
  | .hit => .going { st with pairme := true }
  | .miss => flushWrite io st line

def removeTurn (io : ConfIo) (pats : RemovePats) (st : RemoveState) (line : CStr) : RemoveRun :=
  if isComment line then
    match flushWrite io st line with
    | .going st => removeFields io pats st line
    | run => run
  else removeFields io pats st line

def removeLoop (io : ConfIo) (pats : RemovePats) : RemoveState → List (List Char) → RemoveRun
  | st, [] => .going st
  | st, line :: lines =>
    match removeTurn io pats st (cstr line) with
    | .going st => removeLoop io pats st lines
    | run => run

/-- What `remove_conf_line` comes to: its result with the file afterwards, or `getfield` has
read behind the end of a line. -/
inductive RemoveResult
  | done (code : Int) (file : List Char)
  | overrun
  deriving DecidableEq, Repr

/-- `remove_conf_line`. -/
def removeConfLine (io : ConfIo) (pats : RemovePats) (file : List Char) : RemoveResult :=
  if !io.openIn || !io.openOut then .done (-1) file
  else
    match removeLoop io pats ⟨[], 0, false⟩ (fileLines (file.take io.readable)) with
    | .failed => .done (-1) file
    | .overrun => .overrun
    | .going st =>
      if st.pairme then .done 1 (if io.rename then st.out else file) else .done 0 file

/-! ### What it should do -/

/-- A line to be removed: not a comment, and its fields match the patterns. -/
def RemovePats.Removes (pats : RemovePats) (line : List Char) : Prop :=
  ¬isComment (cstr line) ∧ pats.find (cstr line) = .hit

instance (pats : RemovePats) (line : List Char) : Decidable (pats.Removes line) :=
  inferInstanceAs (Decidable (_ ∧ _))

def RemovePats.RemovesFrom (pats : RemovePats) (file : List Char) : Prop :=
  ∃ line ∈ fileLines file, pats.Removes line

instance (pats : RemovePats) (file : List Char) : Decidable (pats.RemovesFrom file) :=
  inferInstanceAs (Decidable (∃ line ∈ fileLines file, pats.Removes line))

/-- The other lines, each once and in their order. -/
def RemovePats.kept (pats : RemovePats) (file : List Char) : List Char :=
  ((fileLines file).filter fun line => ¬pats.Removes line).flatten

/-- After a success the file has just the lines that are not to be removed, of which there
were some; otherwise it is as it was, and if nothing failed there was no line to be removed. -/
def RightlyRemoved (io : ConfIo) (pats : RemovePats) (file : List Char) : Prop :=
  (removeConfLine io pats file = .done 1 (pats.kept file) ∧ pats.RemovesFrom file) ∨
    (removeConfLine io pats file = .done 0 file ∧ ¬pats.RemovesFrom file) ∨
    removeConfLine io pats file = .done (-1) file

/-- The lines are not in the way: no call of `getfield` reads behind the end of one; the
fields of a comment match exactly if another line is to be removed; and if one is, those
kept have no NUL. -/
structure LinesInOrder (pats : RemovePats) (file : List Char) : Prop where
  inside : ∀ line ∈ fileLines file, pats.find (cstr line) ≠ .overrun
  comments : ∀ line ∈ fileLines file, isComment (cstr line) →
    (pats.find (cstr line) = .hit ↔ pats.RemovesFrom file)
  noNul : pats.RemovesFrom file →
    ∀ line ∈ fileLines file, ¬pats.Removes line → '\x00' ∉ line

def ConfIo.WritesAll (io : ConfIo) : Prop :=
  ∀ n line, io.write n line = none ∨ io.write n line = some line.length

/-- The file is read to its end, a write takes all or fails, and `rename` works. -/
structure ConfIo.Whole (io : ConfIo) (file : List Char) : Prop where
  read : file.length ≤ io.readable
  write : io.WritesAll
  rename : io.rename = true

/-- Nothing fails. -/
structure ConfIo.Works (io : ConfIo) (file : List Char) : Prop where
  openIn : io.openIn = true
  openOut : io.openOut = true
  read : file.length ≤ io.readable
  write : ∀ n line, io.write n line = some line.length
  rename : io.rename = true

/-! ### The loop -/

def RemovePats.written (pats : RemovePats) (line : CStr) : CStr :=
  (if isComment line then line else []) ++ if pats.find line = .hit then [] else line

/-- What is written for all lines, and whether a field matched. -/
def RemovePats.copied (pats : RemovePats) (lines : List (List Char)) : List Char :=
  (lines.map fun line => pats.written (cstr line)).flatten

def ConfIo.WriteFails (io : ConfIo) : Prop := ∃ n line, io.write n line = none

/-- A step that writes all of `text` and then has `pairme` set or not, unless a write
fails. -/
def Writes (io : ConfIo) (st : RemoveState) (text : List Char) (hit : Bool) (run : RemoveRun) :
    Prop :=
  (run = .failed ∧ io.WriteFails) ∨ ∃ n, run = .going ⟨st.out ++ text, n, st.pairme || hit⟩

section Loop

variable {io : ConfIo} (hwrite : io.WritesAll) (pats : RemovePats) (st : RemoveState)

include hwrite

theorem flushWrite_writes (line : CStr) : Writes io st line false (flushWrite io st line) := by
  unfold flushWrite
  cases hwrite st.writes line with
  | inl hnone => exact Or.inl ⟨by rw [hnone], st.writes, line, hnone⟩
  | inr hall => exact Or.inr ⟨st.writes + 1, by rw [hall]; simp⟩

theorem removeFields_writes {line : CStr} (hinside : pats.find line ≠ .overrun) :
    Writes io st (if pats.find line = .hit then [] else line) (pats.find line = .hit)
      (removeFields io pats st line) := by
  unfold removeFields
  cases hfind : pats.find line with
  | overrun => exact absurd hfind hinside
  | hit => exact Or.inr ⟨st.writes, by simp⟩
  | miss => simpa using flushWrite_writes hwrite st line

theorem removeTurn_writes {line : CStr} (hinside : pats.find line ≠ .overrun) :
    Writes io st (pats.written line) (pats.find line = .hit) (removeTurn io pats st line) := by
  unfold removeTurn RemovePats.written
  by_cases hcomment : isComment line = true
  · rw [if_pos hcomment, if_pos hcomment]
    obtain ⟨hfail, hio⟩ | ⟨n, hflush⟩ := flushWrite_writes hwrite st line
    · exact Or.inl ⟨by rw [hfail], hio⟩
    · rw [hflush]
      obtain ⟨hfail, hio⟩ | ⟨m, hfields⟩ := removeFields_writes hwrite pats
        ⟨st.out ++ line, n, st.pairme || false⟩ hinside
      · exact Or.inl ⟨hfail, hio⟩
      · refine Or.inr ⟨m, ?_⟩
        dsimp only
        rw [hfields, append_assoc, Bool.or_false]
  · rw [if_neg hcomment, if_neg hcomment, nil_append]
    exact removeFields_writes hwrite pats st hinside

theorem removeLoop_writes {lines : List (List Char)}
    (hinside : ∀ line ∈ lines, pats.find (cstr line) ≠ .overrun) :
    Writes io st (pats.copied lines) (lines.any fun line => pats.find (cstr line) = .hit)
      (removeLoop io pats st lines) := by
  induction lines generalizing st with
  | nil => exact Or.inr ⟨st.writes, by simp [removeLoop, RemovePats.copied]⟩
  | cons line lines ih =>
    rw [forall_mem_cons] at hinside
    rw [removeLoop]
    obtain ⟨hfail, hio⟩ | ⟨n, hturn⟩ := removeTurn_writes hwrite pats st hinside.1
    · exact Or.inl ⟨by rw [hfail], hio⟩
    · rw [hturn]
      obtain ⟨hfail, hio⟩ | ⟨m, hloop⟩ := ih
        ⟨st.out ++ pats.written (cstr line), n, st.pairme || pats.find (cstr line) = .hit⟩
        hinside.2
      · exact Or.inl ⟨hfail, hio⟩
      · refine Or.inr ⟨m, ?_⟩
        dsimp only
        rw [hloop, append_assoc, Bool.or_assoc]
        rfl

end Loop

theorem removeLoop_overrun {io : ConfIo} (hwrite : ∀ n line, io.write n line = some line.length)
    (pats : RemovePats) (st : RemoveState) {lines : List (List Char)}
    (h : ∃ line ∈ lines, pats.find (cstr line) = .overrun) :
    removeLoop io pats st lines = .overrun := by
  have hall : io.WritesAll := fun n line => Or.inr (hwrite n line)
  have hworks : ¬io.WriteFails := by
    rintro ⟨n, line, hnone⟩
    rw [hwrite] at hnone
    cases hnone
  induction lines generalizing st with
  | nil => exact absurd h (by simp)
  | cons line lines ih =>
    rw [removeLoop]
    by_cases hover : pats.find (cstr line) = .overrun
    · have hturn : removeTurn io pats st (cstr line) = .overrun := by
        unfold removeTurn
        split
        · obtain ⟨-, hio⟩ | ⟨n, hflush⟩ := flushWrite_writes hall st (cstr line)
          · exact absurd hio hworks
          · rw [hflush]
            dsimp only
            rw [removeFields, hover]
        · rw [removeFields, hover]
      rw [hturn]
    · obtain ⟨-, hio⟩ | ⟨n, hturn⟩ := removeTurn_writes hall pats st hover
      · exact absurd hio hworks
      · rw [hturn]
        obtain ⟨line', hmem, hover'⟩ := h
        obtain rfl | hmem := List.mem_cons.mp hmem
        · exact absurd hover' hover
        · exact ih _ ⟨line', hmem, hover'⟩

/-! ### The text of the copy -/

theorem fbgetsCalls_ne_nil (n : Nat) (file : List Char) :
    ∀ line ∈ fbgetsCalls IRCD_BUFSIZE n file, line ≠ [] := by
  induction n generalizing file with
  | zero => intro line hline; cases hline
  | succ n ih =>
    cases file with
    | nil => intro line hline; cases hline
    | cons c file =>
      rw [fbgetsCalls, fbgets]
      dsimp only
      rw [forall_mem_cons]
      refine ⟨?_, ih _⟩
      have hroom : IRCD_BUFSIZE - 1 = 510 + 1 := rfl
      rw [hroom, fbgetsLoop]
      split
      · simp
      · split <;> simp

theorem fileLines_ne_nil (file : List Char) : ∀ line ∈ fileLines file, line ≠ [] :=
  fbgetsCalls_ne_nil _ file

def RemovePats.keep (pats : RemovePats) (line : List Char) : List Char :=
  if pats.Removes line then [] else line

theorem RemovePats.kept_eq (pats : RemovePats) (file : List Char) :
    pats.kept file = ((fileLines file).map pats.keep).flatten := by
  unfold kept keep
  induction fileLines file with
  | nil => rfl
  | cons line lines ih =>
    rw [map_cons, flatten_cons, ← ih]
    by_cases hremoves : pats.Removes line <;> simp [hremoves]

theorem written_eq_keep {pats : RemovePats} {line : List Char}
    (hcomment : isComment (cstr line) → pats.find (cstr line) = .hit)
    (hnul : ¬pats.Removes line → '\x00' ∉ line) :
    pats.written (cstr line) = pats.keep line := by
  unfold RemovePats.written RemovePats.keep
  by_cases hremoves : pats.Removes line
  · rw [if_pos hremoves, if_neg hremoves.1, if_pos hremoves.2, nil_append]
  · have hline : cstr line = line := cstr_of_notMem (hnul hremoves)
    rw [if_neg hremoves]
    by_cases hc : isComment (cstr line) = true
    · rw [if_pos hc, if_pos (hcomment hc), append_nil, hline]
    · have hmiss : pats.find (cstr line) ≠ .hit := fun hhit => hremoves ⟨hc, hhit⟩
      rw [if_neg hc, if_neg hmiss, nil_append, hline]

theorem length_keep_le {pats : RemovePats} {line : List Char}
    (hnul : ¬pats.Removes line → '\x00' ∉ line) :
    (pats.keep line).length ≤ (pats.written (cstr line)).length ∧
      (isComment (cstr line) → line ≠ [] → pats.find (cstr line) ≠ .hit →
        (pats.keep line).length < (pats.written (cstr line)).length) := by
  unfold RemovePats.keep RemovePats.written
  by_cases hremoves : pats.Removes line
  · rw [if_pos hremoves, if_neg hremoves.1, if_pos hremoves.2]
    exact ⟨Nat.le_refl 0, fun hc => absurd hc hremoves.1⟩
  · have hline : cstr line = line := cstr_of_notMem (hnul hremoves)
    rw [if_neg hremoves]
    by_cases hc : isComment (cstr line) = true
    · rw [if_pos hc, length_append, hline]
      refine ⟨Nat.le_add_right .., fun _ hne hmiss => ?_⟩
      have hlen := length_pos_of_ne_nil hne
      rw [if_neg hmiss]
      omega
    · have hmiss : pats.find (cstr line) ≠ .hit := fun hhit => hremoves ⟨hc, hhit⟩
      rw [if_neg hc, if_neg hmiss, nil_append]
      exact ⟨Nat.le_of_eq (by rw [hline]), fun hc' => absurd hc' hc⟩

theorem length_eq_of_flatten_eq {α β : Type} {f g : α → List β} {l : List α}
    (hle : ∀ a ∈ l, (f a).length ≤ (g a).length)
    (h : (l.map g).flatten.length = (l.map f).flatten.length) :
    ∀ a ∈ l, (f a).length = (g a).length := by
  have hsum : ∀ l : List α, (∀ a ∈ l, (f a).length ≤ (g a).length) →
      (l.map f).flatten.length ≤ (l.map g).flatten.length := by
    intro l hle
    induction l with
    | nil => exact Nat.le_refl 0
    | cons a l ih =>
      rw [forall_mem_cons] at hle
      have htail := ih hle.2
      simp only [map_cons, flatten_cons, length_append]
      omega
  induction l with
  | nil => intro a ha; cases ha
  | cons a l ih =>
    rw [forall_mem_cons] at hle ⊢
    have htail := hsum l hle.2
    simp only [map_cons, flatten_cons, length_append] at h
    exact ⟨by omega, ih hle.2 (by omega)⟩

theorem noNul_written (pats : RemovePats) (line : List Char) :
    '\x00' ∉ pats.written (cstr line) := by
  have hline : '\x00' ∉ cstr line := fun hmem => ne_nul_of_mem_cstr hmem rfl
  unfold RemovePats.written
  rw [mem_append, not_or]
  constructor
  · split
    · exact hline
    · exact not_mem_nil
  · split
    · exact not_mem_nil
    · exact hline

theorem copied_eq_kept_iff (pats : RemovePats) (file : List Char) :
    pats.copied (fileLines file) = pats.kept file ↔
      (∀ line ∈ fileLines file, ¬pats.Removes line → '\x00' ∉ line) ∧
        ∀ line ∈ fileLines file, isComment (cstr line) → pats.find (cstr line) = .hit := by
  rw [pats.kept_eq, RemovePats.copied]
  constructor
  · intro heq
    have hnul : ∀ line ∈ fileLines file, ¬pats.Removes line → '\x00' ∉ line := by
      intro line hline hkeep hmem
      have hkept : '\x00' ∈ ((fileLines file).map pats.keep).flatten := by
        refine List.mem_flatten.mpr ⟨_, mem_map_of_mem hline, ?_⟩
        rwa [RemovePats.keep, if_neg hkeep]
      rw [← heq] at hkept
      obtain ⟨text, htext, hmem⟩ := List.mem_flatten.mp hkept
      obtain ⟨line', -, rfl⟩ := List.mem_map.mp htext
      exact noNul_written pats line' hmem
    refine ⟨hnul, fun line hline hcomment => ?_⟩
    by_contra hmiss
    have hlen := length_eq_of_flatten_eq
      (fun line hline => (length_keep_le (hnul line hline)).1)
      (congrArg List.length heq) line hline
    have hlt := (length_keep_le (hnul line hline)).2 hcomment
      (fileLines_ne_nil file line hline) hmiss
    omega
  · rintro ⟨hnul, hcomment⟩
    apply congrArg List.flatten
    refine map_congr_left fun line hline => ?_
    exact written_eq_keep (hcomment line hline) (hnul line hline)

/-! ### When the file is right -/

theorem any_hit_iff (pats : RemovePats) (file : List Char) :
    ((fileLines file).any fun line => pats.find (cstr line) = .hit) = true ↔
      pats.RemovesFrom file ∨
        ∃ line ∈ fileLines file, isComment (cstr line) ∧ pats.find (cstr line) = .hit := by
  rw [any_eq_true]
  constructor
  · rintro ⟨line, hline, hhit⟩
    have hhit' := of_decide_eq_true hhit
    by_cases hc : isComment (cstr line) = true
    · exact Or.inr ⟨line, hline, hc, hhit'⟩
    · exact Or.inl ⟨line, hline, hc, hhit'⟩
  · rintro (⟨line, hline, -, hhit⟩ | ⟨line, hline, -, hhit⟩)
    · exact ⟨line, hline, decide_eq_true hhit⟩
    · exact ⟨line, hline, decide_eq_true hhit⟩

theorem LinesInOrder.any_hit_iff {pats : RemovePats} {file : List Char}
    (h : LinesInOrder pats file) :
    ((fileLines file).any fun line => pats.find (cstr line) = .hit) = true ↔
      pats.RemovesFrom file := by
  rw [Ircd.any_hit_iff]
  constructor
  · rintro (hremoves | ⟨line, hline, hc, hhit⟩)
    · exact hremoves
    · exact (h.comments line hline hc).mp hhit
  · exact Or.inl

theorem LinesInOrder.rightlyRemoved {io : ConfIo} {pats : RemovePats} {file : List Char}
    (h : LinesInOrder pats file) (hio : io.Whole file) : RightlyRemoved io pats file := by
  unfold RightlyRemoved removeConfLine
  split
  · exact Or.inr (Or.inr rfl)
  · rw [take_of_length_le hio.read]
    obtain ⟨hfail, -⟩ | ⟨n, hloop⟩ := removeLoop_writes hio.write pats ⟨[], 0, false⟩ h.inside
    · rw [hfail]
      exact Or.inr (Or.inr rfl)
    · rw [hloop]
      dsimp only
      rw [nil_append, Bool.false_or, hio.rename]
      by_cases hremoves : pats.RemovesFrom file
      · have hkept : pats.copied (fileLines file) = pats.kept file :=
          (copied_eq_kept_iff pats file).mpr
            ⟨h.noNul hremoves, fun line hline hc => (h.comments line hline hc).mpr hremoves⟩
        rw [if_pos (h.any_hit_iff.mpr hremoves), if_pos rfl, hkept]
        exact Or.inl ⟨rfl, hremoves⟩
      · rw [if_neg fun hany => hremoves (h.any_hit_iff.mp hany)]
        exact Or.inr (Or.inl ⟨rfl, hremoves⟩)

theorem ConfIo.Works.whole {io : ConfIo} {file : List Char} (h : io.Works file) :
    io.Whole file :=
  ⟨h.read, fun n line => Or.inr (h.write n line), h.rename⟩

theorem RightlyRemoved.linesInOrder {io : ConfIo} {pats : RemovePats} {file : List Char}
    (h : RightlyRemoved io pats file) (hio : io.Works file) : LinesInOrder pats file := by
  have hworks : ¬io.WriteFails := by
    rintro ⟨n, line, hnone⟩
    rw [hio.write] at hnone
    cases hnone
  unfold RightlyRemoved removeConfLine at h
  rw [hio.openIn, hio.openOut, if_neg (by decide), take_of_length_le hio.read] at h
  have hinside : ∀ line ∈ fileLines file, pats.find (cstr line) ≠ .overrun := by
    intro line hline hover
    rw [removeLoop_overrun hio.write pats _ ⟨line, hline, hover⟩] at h
    simp at h
  obtain ⟨-, hfails⟩ | ⟨n, hloop⟩ :=
    removeLoop_writes hio.whole.write pats ⟨[], 0, false⟩ hinside
  · exact absurd hfails hworks
  rw [hloop] at h
  dsimp only at h
  rw [nil_append, Bool.false_or, hio.rename, if_pos rfl] at h
  cases hany : (fileLines file).any fun line => pats.find (cstr line) = .hit with
  | true =>
    rw [hany, if_pos rfl] at h
    obtain ⟨hdone, hremoves⟩ | ⟨hdone, -⟩ | hdone := h
    · have hkept : pats.copied (fileLines file) = pats.kept file := by
        injection hdone
      obtain ⟨hnul, hcomment⟩ := (copied_eq_kept_iff pats file).mp hkept
      exact ⟨hinside, fun line hline hc => iff_of_true (hcomment line hline hc) hremoves,
        fun _ => hnul⟩
    · simp at hdone
    · simp at hdone
  | false =>
    have hnone : ¬(pats.RemovesFrom file ∨
        ∃ line ∈ fileLines file, isComment (cstr line) ∧ pats.find (cstr line) = .hit) := by
      rw [← any_hit_iff, hany]
      decide
    rw [not_or] at hnone
    refine ⟨hinside, fun line hline hc => iff_of_false ?_ hnone.1, fun hremoves => ?_⟩
    · exact fun hhit => hnone.2 ⟨line, hline, hc, hhit⟩
    · exact absurd hremoves hnone.1

/-- Lines in order make the file right, and where nothing fails only these do. -/
theorem remove_conf_line_iff (io : ConfIo) (pats : RemovePats) (file : List Char) :
    (io.Whole file ∧ LinesInOrder pats file → RightlyRemoved io pats file) ∧
      (io.Works file → (RightlyRemoved io pats file ↔ LinesInOrder pats file)) := by
  constructor
  · rintro ⟨hio, h⟩
    exact h.rightlyRemoved hio
  · intro hio
    exact ⟨fun h => h.linesInOrder hio, fun h => h.rightlyRemoved hio.whole⟩

def workingIo : ConfIo := ⟨true, true, 1024, fun _ line => some line.length, true⟩

theorem workingIo_works {file : List Char} (h : file.length ≤ 1024) : workingIo.Works file :=
  ⟨rfl, rfl, h, fun _ _ => rfl, rfl⟩

/-- The K-line on `u@h`. -/
def killPats : RemovePats := ⟨.kline, ['u'], some ['h']⟩

/-- Two K-lines, the first to be removed, and a comment with its fields. -/
def orderedFile : List Char := "\"u\",\"h\",\"r\"\n\"x\",\"y\",\"z\"\n# \"u\",\"h\"\n".toList

theorem remove_conf_line_ordered :
    RightlyRemoved workingIo killPats orderedFile ∧ LinesInOrder killPats orderedFile := by
  have hworks : workingIo.Works orderedFile := workingIo_works (by decide +kernel)
  have horder : LinesInOrder killPats orderedFile :=
    ⟨by decide +kernel, by decide +kernel, by decide +kernel⟩
  have hright := (remove_conf_line_iff workingIo killPats orderedFile).1 ⟨hworks.whole, horder⟩
  exact ⟨hright, ((remove_conf_line_iff workingIo killPats orderedFile).2 hworks).mp hright⟩

/-- A comment with fields, before a line to be removed. -/
def commentedFile : List Char := "# was \"a\",\"b\"\n\"u\",\"h\",\"r\"\n".toList

/-- The comment is written twice. -/
theorem remove_conf_line_doubles :
    workingIo.Works commentedFile ∧
      removeConfLine workingIo killPats commentedFile =
        .done 1 "# was \"a\",\"b\"\n# was \"a\",\"b\"\n".toList ∧
      ¬RightlyRemoved workingIo killPats commentedFile := by
  have hrun : removeConfLine workingIo killPats commentedFile =
      .done 1 "# was \"a\",\"b\"\n# was \"a\",\"b\"\n".toList := by decide +kernel
  refine ⟨workingIo_works (by decide +kernel), hrun, ?_⟩
  have hkept : killPats.kept commentedFile = "# was \"a\",\"b\"\n".toList := by decide +kernel
  unfold RightlyRemoved
  rw [hrun, hkept]
  rintro (⟨hdone, -⟩ | ⟨hdone, -⟩ | hdone)
  · revert hdone
    decide +kernel
  · revert hdone
    decide +kernel
  · revert hdone
    decide +kernel

end Ircd
