import Ircd.Csv
import Ircd.Gline
import Ircd.Sjoin
import Ircd.Line
import Ircd.Lib.CBuffer

/-!
How `parse_csv_file` reads a file of K-lines and their kin, with the buffer the lines are
read into and the variables their fields are kept in, which are shared by all lines.

A line holds its fields if the calls of `getfield` find them in the line and its NUL alone
(`HoldsItsFields`). Only such a line is read on its own (`csv_line_alone_iff`): for a missing
field the variable still points where a line before has left it, and a call that runs over
the NUL goes on in what a longer line has left in the buffer.
-/

namespace Ircd

open List
open CBuffer

/-! ### Lines of a file -/

/-- The loop of `fbgets`, with room for `n` more characters: the line, its `"\r\n"` or
`'\r'` as `'\n'`, and what is left of the file. -/
def fbgetsLoop : Nat → List Char → List Char × List Char
  | 0, file => ([], file)
  | _ + 1, [] => ([], [])
  | n + 1, c :: file =>
    if c = '\n' then (['\n'], file)
    else if c = '\r' then
      (['\n'], if file.head? = some '\n' then file.tail else file)
    else
      let (line, file) := fbgetsLoop n file
      (c :: line, file)

/-- `fbgets`: `none` at the end of the file. -/
def fbgets (len : Nat) : List Char → Option (List Char × List Char)
  | [] => none
  | c :: file => some (fbgetsLoop (len - 1) (c :: file))

/-- What up to `n` calls of `fbgets` return. -/
def fbgetsCalls (len : Nat) : Nat → List Char → List (List Char)
  | 0, _ => []
  | n + 1, file =>
    match fbgets len file with
    | none => []
    | some (line, file) => line :: fbgetsCalls len n file

/-- The lines of a file, as calls of `fbgets` return them until `NULL`. Each takes a
character of the file at least. -/
def fileLines (file : List Char) : List (List Char) :=
  fbgetsCalls IRCD_BUFSIZE (file.length + 1) file

/-- A line as `fbgets` returns it. -/
structure FileLine where
  text : List Char
  nonempty : text ≠ []
  fits : text.length < IRCD_BUFSIZE
  noReturn : '\r' ∉ text
  feedLast : '\n' ∉ text.dropLast

/-! ### `getfield` in a buffer -/

/-- What a call of `getfield` comes to in a buffer: a field from one place to the closing
quote at another, `NULL`, or the end of the buffer overrun. -/
inductive FieldAt
  | field (start close : Nat)
  | null
  | overrun
  deriving DecidableEq, Repr

/-- The second loop of `getfield`, from the place `pos` on. -/
def scanAt (start : Nat) : Nat → List Char → FieldAt
  | _, [] => .overrun
  | pos, c :: s =>
    if c = '\x00' ∨ c = '\n' then .null
    else if c = '\\' then
      match s with
      | [] => .overrun
      | _ :: s => scanAt start (pos + 2) s
    else if c = '"' then .field start pos
    else scanAt start (pos + 1) s

/-- `getfield` with its `line` at the place `pos`. The first loop stops at a quote only,
not at a NUL. -/
def getfieldAt (buf : List Char) (pos : Nat) : FieldAt :=
  match (buf.drop pos).findIdx? (· = '"') with
  | none => .overrun
  | some i => scanAt (pos + i + 1) (pos + i + 1) (buf.drop (pos + i + 1))

/-- What the calls of `getfield` for a line come to: where the fields start, the buffer
with their closing quotes made NULs, and whether a call has overrun it. -/
structure CsvFields where
  starts : List Nat
  buf : List Char
  overrun : Bool
  deriving DecidableEq, Repr

/-- Up to `n` calls of `getfield`, the first with its `line` at `pos`, until one returns
`NULL`. -/
def csvFields : Nat → List Char → Nat → CsvFields
  | 0, buf, _ => ⟨[], buf, false⟩
  | n + 1, buf, pos =>
    match getfieldAt buf pos with
    | .overrun => ⟨[], buf, true⟩
    | .null => ⟨[], buf, false⟩
    | .field start close =>
      let read := csvFields n (buf.set close '\x00') (close + 1)
      { read with starts := start :: read.starts }

/-! ### `parse_csv_file` -/

/-- The type of a file; of the types that no such file has, `parse_csv_file` reads
nothing. -/
inductive CsvType
  | kline
  | rkline
  | dline
  | xline
  | rxline
  | cresv
  | nresv
  | other
  deriving DecidableEq, Repr

/-- The variables of `parse_csv_file` for the fields. -/
inductive CsvVar
  | nameField
  | userField
  | reasonField
  | operReason
  | hostField
  deriving DecidableEq, Repr

/-- The variables given to `parse_csv_line`. -/
def CsvType.destVars : CsvType → List CsvVar
  | .kline | .rkline => [.userField, .hostField, .reasonField]
  | .dline => [.hostField, .reasonField]
  | .xline | .rxline => [.nameField, .reasonField, .operReason]
  | .cresv | .nresv => [.nameField, .reasonField]
  | .other => []

def CsvType.entryVars : CsvType → List CsvVar
  | .kline | .rkline => [.userField, .hostField, .reasonField]
  | .dline => [.hostField, .reasonField]
  | .xline | .rxline | .cresv | .nresv => [.nameField, .reasonField]
  | .other => []

/-- An entry made from a line. A K-line without a host is made, but not added to the
addresses. -/
inductive CsvItem
  | kline (user host reason : Option CStr)
  | rkline (user host reason : CStr)
  | dline (host reason : Option CStr)
  | xline (name reason : Option CStr)
  | rxline (name reason : CStr)
  | cresv (name reason : CStr)
  | nresv (name reason : CStr)
  deriving DecidableEq, Repr

/-- `line`, the variables, and the entries made so far. -/
structure CsvState where
  line : List Char
  vars : CsvVar → Option Nat
  items : List CsvItem

/-- What the entries depend on besides the line: whether `ircd_pcre_compile` takes an
expression, and whether there is a reservation of the name. -/
structure CsvEnv where
  compiles : CStr → Bool
  resvFound : CsvType → List CsvItem → CStr → Bool

/-- The text a variable points to. -/
def CsvState.value (st : CsvState) (v : CsvVar) : Option CStr := (st.vars v).map (strAt st.line)

/-- The line feed that `strchr` finds becomes a NUL. -/
def cutLineFeed : List Char → List Char
  | [] => []
  | c :: s =>
    if c = '\n' then '\x00' :: s else if c = '\x00' then c :: s else c :: cutLineFeed s

/-- `fbgets` into a buffer, and the line feed cut. -/
def storeLine (buf line : List Char) : List Char :=
  cutLineFeed (line ++ '\x00' :: buf.drop (line.length + 1))

def skipsLine (buf : List Char) : Bool := buf.head? = some '\x00' || buf.head? = some '#'

/-- `parse_csv_line`: each variable given points to the field found for it; one for which
none is found keeps what it had. -/
def setVars (dests : List CsvVar) (starts : List Nat) (vars : CsvVar → Option Nat) (v : CsvVar) :
    Option Nat :=
  (starts[dests.idxOf v]?).or (vars v)

/-- `create_channel_resv` and `create_nick_resv` cut a long reason where it stands. -/
def CsvState.cutReason (st : CsvState) : CsvState :=
  match st.vars .reasonField with
  | none => st
  | some reason =>
    if REASONLEN < (strAt st.line reason).length then
      { st with line := st.line.set (reason + REASONLEN) '\x00' }
    else st

/-- The texts an entry is made from: the fields, and the fields behind the cut of the
reason. -/
structure EntryTexts where
  fields : List (Option CStr)
  cut : List (Option CStr)
  deriving DecidableEq, Repr

def CsvState.texts (type : CsvType) (st : CsvState) : EntryTexts :=
  ⟨type.entryVars.map st.value, type.entryVars.map st.cutReason.value⟩

/-- A line is read: the texts for its entry, none for a line that is skipped. An overrun of
the buffer is an error. -/
def csvRead (type : CsvType) (st : CsvState) (text : List Char) :
    Option (CsvState × Option EntryTexts) :=
  let line := storeLine st.line text
  if skipsLine line then some ({ st with line := line }, none)
  else
    let read := csvFields type.destVars.length line 0
    if read.overrun then none
    else
      let st := { st with line := read.buf, vars := setVars type.destVars read.starts st.vars }
      some (st, some (st.texts type))

/-- The entry made from the texts, in the order of `entryVars`. -/
def csvEntry (env : CsvEnv) (items : List CsvItem) (type : CsvType) (texts : EntryTexts) :
    Option CsvItem :=
  match type, texts.fields, texts.cut with
  | .kline, [user, host, reason], _ => some (.kline user host reason)
  | .rkline, [some user, some host, reason], _ =>
    if env.compiles user && env.compiles host then
      some (.rkline user host (reason.getD "No reason".toList))
    else none
  | .dline, [host, reason], _ => some (.dline host reason)
  | .xline, [name, reason], _ => some (.xline name reason)
  | .rxline, [some name, reason], _ =>
    if env.compiles name then some (.rxline name (reason.getD "No reason".toList)) else none
  | .cresv, [some name, some _], [some cutName, some cutReason] =>
    if env.resvFound .cresv items name then none
    else some (.cresv (cutName.take CHANNELLEN) cutReason)
  | .nresv, [some name, some _], [some cutName, some cutReason] =>
    if env.resvFound .nresv items name then none else some (.nresv cutName cutReason)
  | _, _, _ => none

def csvAdd (env : CsvEnv) (type : CsvType) (st : CsvState) (texts : EntryTexts) : CsvState :=
  match csvEntry env st.items type texts with
  | none => st
  | some item =>
    let st := if type = .cresv ∨ type = .nresv then st.cutReason else st
    { st with items := st.items ++ [item] }

def csvStep (env : CsvEnv) (type : CsvType) (st : CsvState) (text : List Char) :
    Option CsvState :=
  (csvRead type st text).map fun
    | (st, none) => st
    | (st, some texts) => csvAdd env type st texts

/-- At the start the variables are `NULL`; what the buffer holds is not known. -/
def csvStart (buf : List Char) : CsvState := ⟨buf, fun _ => none, []⟩

/-- `parse_csv_file`. -/
def parseCsvFile (env : CsvEnv) (type : CsvType) (buf file : List Char) : Option CsvState :=
  (fileLines file).foldlM (csvStep env type) (csvStart buf)

/-! ### A line on its own -/

namespace FileLine

/-- The line in a buffer that ends with its NUL. -/
def alone (line : FileLine) : List Char := storeLine [] line.text

/-- What the calls of `getfield` find in the line alone. -/
def ownFields (type : CsvType) (line : FileLine) : CsvFields :=
  csvFields type.destVars.length line.alone 0

/-- The texts for the entry of the line from the line alone; a field that is missing in it
is `NULL`. -/
def ownTexts (type : CsvType) (line : FileLine) : Option EntryTexts :=
  if skipsLine line.alone then none
  else
    let read := line.ownFields type
    let st : CsvState := ⟨read.buf, setVars type.destVars read.starts fun _ => none, []⟩
    some (st.texts type)

end FileLine

/-- In whatever file the line stands, and whatever the buffer holds at first, the texts for
its entry are those of the line alone. -/
def ReadAlone (type : CsvType) (line : FileLine) : Prop :=
  ∀ env buf file pre post st, buf.length = IRCD_BUFSIZE →
    fileLines file = pre ++ line.text :: post →
    pre.foldlM (csvStep env type) (csvStart buf) = some st →
    (csvRead type st line.text).map Prod.snd = some (line.ownTexts type)

/-- The line is skipped, or its calls of `getfield` do not read behind its NUL and find all
fields that the entry is made from. -/
def HoldsItsFields (type : CsvType) (line : FileLine) : Prop :=
  skipsLine line.alone = true ∨
    ((line.ownFields type).overrun = false ∧
      type.entryVars.length ≤ (line.ownFields type).starts.length)

instance (type : CsvType) (line : FileLine) : Decidable (HoldsItsFields type line) :=
  inferInstanceAs (Decidable (_ ∨ _ ∧ _))

/-! ### What stands behind a line -/

def EndsNul (buf : List Char) : Prop := ∃ text, buf = text ++ ['\x00']

theorem EndsNul.set {buf : List Char} (h : EndsNul buf) (k : Nat) : EndsNul (buf.set k '\x00') := by
  obtain ⟨text, rfl⟩ := h
  rw [set_append]
  split
  · exact ⟨_, rfl⟩
  · refine ⟨text, ?_⟩
    cases k - text.length <;> rfl

theorem EndsNul.strAt_append {buf : List Char} (h : EndsNul buf) {s : Nat} (hs : s < buf.length)
    (rest : List Char) : strAt (buf ++ rest) s = strAt buf s := by
  obtain ⟨text, rfl⟩ := h
  have hle : s ≤ text.length := by simpa using Nat.lt_succ_iff.mp (by simpa using hs)
  have hends : ∀ l rest : List Char, cstr (l ++ '\x00' :: rest) = cstr l := by
    intro l rest
    induction l with
    | nil => rfl
    | cons c l ih =>
      unfold cstr at ih ⊢
      rw [cons_append, takeWhile_cons, takeWhile_cons, ih]
  rw [strAt, strAt, append_assoc, drop_append_of_le_length hle,
    drop_append_of_le_length hle]
  exact (hends _ rest).trans (hends _ []).symm

theorem cutLineFeed_append (text rest : List Char) :
    cutLineFeed (text ++ '\x00' :: rest) = cutLineFeed (text ++ ['\x00']) ++ rest := by
  induction text with
  | nil => rfl
  | cons c text ih =>
    simp only [cons_append, cutLineFeed]
    split
    · simp
    · split
      · simp
      · rw [ih, cons_append]

theorem endsNul_cutLineFeed (text : List Char) : EndsNul (cutLineFeed (text ++ ['\x00'])) := by
  induction text with
  | nil => exact ⟨[], rfl⟩
  | cons c text ih =>
    simp only [cons_append, cutLineFeed]
    split
    · exact ⟨'\x00' :: text, rfl⟩
    · split
      · exact ⟨c :: text, rfl⟩
      · obtain ⟨start, hstart⟩ := ih
        exact ⟨c :: start, by rw [hstart, cons_append]⟩

theorem storeLine_eq (buf : List Char) (line : FileLine) :
    storeLine buf line.text = line.alone ++ buf.drop (line.text.length + 1) := by
  rw [FileLine.alone, storeLine, storeLine, drop_nil, cutLineFeed_append]

theorem FileLine.endsNul_alone (line : FileLine) : EndsNul line.alone := by
  rw [alone, storeLine, drop_nil]
  exact endsNul_cutLineFeed line.text

theorem EndsNul.skipsLine_append {buf : List Char} (h : EndsNul buf) (rest : List Char) :
    skipsLine (buf ++ rest) = skipsLine buf := by
  obtain ⟨text, rfl⟩ := h
  cases text <;> rfl

theorem scanAt_cons (start pos : Nat) (c : Char) (s : List Char) : scanAt start pos (c :: s) =
    if c = '\x00' ∨ c = '\n' then .null
    else if c = '\\' then
      match s with
      | [] => .overrun
      | _ :: s => scanAt start (pos + 2) s
    else if c = '"' then .field start pos
    else scanAt start (pos + 1) s :=
  scanAt.eq_def start pos (c :: s)

theorem scanAt_end {c : Char} (start pos : Nat) (s : List Char) (h : c = '\x00' ∨ c = '\n') :
    scanAt start pos (c :: s) = .null := by
  rw [scanAt_cons, if_pos h]

theorem scanAt_quote (start pos : Nat) (s : List Char) :
    scanAt start pos ('"' :: s) = .field start pos :=
  scanAt_cons start pos '"' s

theorem scanAt_escape (start pos : Nat) (d : Char) (s : List Char) :
    scanAt start pos ('\\' :: d :: s) = scanAt start (pos + 2) s :=
  scanAt_cons start pos '\\' (d :: s)

theorem scanAt_char {c : Char} (start pos : Nat) (s : List Char) (hend : ¬(c = '\x00' ∨ c = '\n'))
    (hback : c ≠ '\\') (hquote : c ≠ '"') :
    scanAt start pos (c :: s) = scanAt start (pos + 1) s := by
  rw [scanAt_cons, if_neg hend, if_neg hback, if_neg hquote]

theorem scanAt_append (start pos : Nat) (s rest : List Char)
    (h : scanAt start pos s ≠ .overrun) : scanAt start pos (s ++ rest) = scanAt start pos s := by
  fun_induction scanAt start pos s with
  | case1 pos => exact absurd rfl h
  | case2 pos c s hend => rw [cons_append, scanAt_end start pos _ hend]
  | case3 pos hend => exact absurd rfl h
  | case4 pos d s hend ih =>
    rw [cons_append, cons_append, scanAt_escape]
    exact ih h
  | case5 pos s hend hback => rw [cons_append, scanAt_quote]
  | case6 pos c s hend hback hquote ih =>
    rw [cons_append, scanAt_char start pos _ hend hback hquote]
    exact ih h

theorem scanAt_overrun (start pos k : Nat) (s : List Char) (h : scanAt start pos s = .overrun) :
    scanAt start pos (s ++ List.replicate k 'x') = .overrun := by
  have hfill : ∀ k pos, scanAt start pos (List.replicate k 'x') = .overrun := by
    intro k
    induction k with
    | zero => intro pos; rfl
    | succ k ih =>
      intro pos
      rw [replicate_succ, scanAt_char start pos _ (by decide) (by decide) (by decide)]
      exact ih _
  fun_induction scanAt start pos s with
  | case1 pos => exact hfill k pos
  | case2 pos c s hend => cases h
  | case3 pos hend =>
    cases k with
    | zero => rfl
    | succ k => exact (scanAt_escape start pos 'x' _).trans (hfill k (pos + 2))
  | case4 pos d s hend ih =>
    rw [cons_append, cons_append, scanAt_escape]
    exact ih h
  | case5 pos s hend hback => cases h
  | case6 pos c s hend hback hquote ih =>
    rw [cons_append, scanAt_char start pos _ hend hback hquote]
    exact ih h

theorem scanAt_field {start pos s' close : Nat} {s : List Char}
    (h : scanAt start pos s = .field s' close) :
    s' = start ∧ pos ≤ close ∧ close < pos + s.length := by
  fun_induction scanAt start pos s with
  | case1 pos => cases h
  | case2 pos c s hend => cases h
  | case3 pos hend => cases h
  | case4 pos d s hend ih =>
    obtain ⟨heq, hle, hlt⟩ := ih h
    simp only [length_cons]
    exact ⟨heq, by omega, by omega⟩
  | case5 pos s hend hback =>
    cases h
    simp
  | case6 pos c s hend hback hquote ih =>
    obtain ⟨heq, hle, hlt⟩ := ih h
    simp only [length_cons]
    exact ⟨heq, by omega, by omega⟩

theorem getfieldAt_append {buf : List Char} {pos : Nat} (hpos : pos ≤ buf.length)
    (rest : List Char) (h : getfieldAt buf pos ≠ .overrun) :
    getfieldAt (buf ++ rest) pos = getfieldAt buf pos := by
  unfold getfieldAt at h ⊢
  rw [drop_append_of_le_length hpos, findIdx?_append]
  cases hquote : (buf.drop pos).findIdx? (· = '"') with
  | none =>
    rw [hquote] at h
    exact absurd rfl h
  | some i =>
    have hi := (List.findIdx?_eq_some_iff_getElem.mp hquote).1
    rw [length_drop] at hi
    rw [hquote] at h
    dsimp only [Option.some_or] at h ⊢
    rw [drop_append_of_le_length (by omega)]
    exact scanAt_append _ _ _ rest h

theorem getfieldAt_overrun {buf : List Char} {pos : Nat} (hpos : pos ≤ buf.length) (k : Nat)
    (h : getfieldAt buf pos = .overrun) :
    getfieldAt (buf ++ List.replicate k 'x') pos = .overrun := by
  unfold getfieldAt at h ⊢
  rw [drop_append_of_le_length hpos, findIdx?_append]
  cases hquote : (buf.drop pos).findIdx? (· = '"') with
  | none =>
    have hfill : (List.replicate k 'x').findIdx? (· = '"') = none := by
      rw [findIdx?_eq_none_iff]
      intro c hc
      rw [eq_of_mem_replicate hc]
      rfl
    rw [hfill]
    rfl
  | some i =>
    have hi := (List.findIdx?_eq_some_iff_getElem.mp hquote).1
    rw [length_drop] at hi
    rw [hquote] at h
    dsimp only [Option.some_or] at h ⊢
    rw [drop_append_of_le_length (by omega)]
    exact scanAt_overrun _ _ k _ h

theorem getfieldAt_field {buf : List Char} {pos start close : Nat}
    (h : getfieldAt buf pos = .field start close) :
    pos < start ∧ start ≤ close ∧ close < buf.length := by
  unfold getfieldAt at h
  cases hquote : (buf.drop pos).findIdx? (· = '"') with
  | none =>
    rw [hquote] at h
    cases h
  | some i =>
    rw [hquote] at h
    obtain ⟨heq, hle, hlt⟩ := scanAt_field h
    rw [length_drop] at hlt
    omega

theorem csvFields_append (n : Nat) (buf rest : List Char) (pos : Nat) (hpos : pos ≤ buf.length)
    (h : (csvFields n buf pos).overrun = false) :
    csvFields n (buf ++ rest) pos =
      { csvFields n buf pos with buf := (csvFields n buf pos).buf ++ rest } := by
  fun_induction csvFields n buf pos with
  | case1 buf pos => rfl
  | case2 n buf pos hfield => cases h
  | case3 n buf pos hfield =>
    have hsame := getfieldAt_append hpos rest (by rw [hfield]; simp)
    rw [csvFields, hsame, hfield]
  | case4 n buf pos start close hfield read ih =>
    obtain ⟨hstart, hclose, hlen⟩ := getfieldAt_field hfield
    have hsame := getfieldAt_append hpos rest (by rw [hfield]; simp)
    have hset : (buf ++ rest).set close '\x00' = buf.set close '\x00' ++ rest :=
      set_append_left _ _ hlen
    rw [csvFields, hsame, hfield]
    dsimp only
    rw [hset, ih (by rw [length_set]; omega) h]

theorem csvFields_overrun (n : Nat) (buf : List Char) (pos k : Nat) (hpos : pos ≤ buf.length)
    (h : (csvFields n buf pos).overrun = true) :
    (csvFields n (buf ++ List.replicate k 'x') pos).overrun = true := by
  fun_induction csvFields n buf pos with
  | case1 buf pos => cases h
  | case2 n buf pos hfield => rw [csvFields, getfieldAt_overrun hpos k hfield]
  | case3 n buf pos hfield => cases h
  | case4 n buf pos start close hfield read ih =>
    obtain ⟨hstart, hclose, hlen⟩ := getfieldAt_field hfield
    have hsame := getfieldAt_append hpos (List.replicate k 'x') (by rw [hfield]; simp)
    have hset : (buf ++ List.replicate k 'x').set close '\x00' =
        buf.set close '\x00' ++ List.replicate k 'x' := set_append_left _ _ hlen
    rw [csvFields, hsame, hfield]
    dsimp only
    rw [hset]
    exact ih (by rw [length_set]; omega) h

theorem csvFields_inside (n : Nat) (buf : List Char) (pos : Nat) (hends : EndsNul buf) :
    EndsNul (csvFields n buf pos).buf ∧ (csvFields n buf pos).buf.length = buf.length ∧
      (csvFields n buf pos).starts.length ≤ n ∧
      ∀ start ∈ (csvFields n buf pos).starts, start < buf.length := by
  fun_induction csvFields n buf pos with
  | case1 buf pos => exact ⟨hends, rfl, Nat.le_refl 0, by simp⟩
  | case2 n buf pos hfield => exact ⟨hends, rfl, Nat.zero_le _, by simp⟩
  | case3 n buf pos hfield => exact ⟨hends, rfl, Nat.zero_le _, by simp⟩
  | case4 n buf pos start close hfield read ih =>
    obtain ⟨hstart, hclose, hlen⟩ := getfieldAt_field hfield
    obtain ⟨hends', hlength, hcount, hstarts⟩ := ih (hends.set close)
    rw [length_set] at hlength hstarts
    refine ⟨hends', hlength, Nat.succ_le_succ hcount, ?_⟩
    rw [forall_mem_cons]
    exact ⟨by omega, hstarts⟩

/-! ### The texts of an entry -/

theorem FileLine.ownFields_inside (type : CsvType) (line : FileLine) :
    EndsNul (line.ownFields type).buf ∧
      ∀ start ∈ (line.ownFields type).starts, start < (line.ownFields type).buf.length := by
  obtain ⟨hends, hlength, -, hstarts⟩ :=
    csvFields_inside type.destVars.length line.alone 0 line.endsNul_alone
  refine ⟨hends, fun start hstart => ?_⟩
  rw [ownFields, hlength]
  exact hstarts start hstart

/-- Two states with the same variables for an entry, the buffer of one ending within that
of the other, behind all its texts. -/
structure SameTexts (type : CsvType) (own st : CsvState) (rest : List Char) : Prop where
  line : st.line = own.line ++ rest
  endsNul : EndsNul own.line
  vars : ∀ v ∈ type.entryVars, ∃ start < own.line.length,
    own.vars v = some start ∧ st.vars v = some start

theorem SameTexts.value {type : CsvType} {own st : CsvState} {rest : List Char}
    (h : SameTexts type own st rest) {v : CsvVar} (hv : v ∈ type.entryVars) :
    st.value v = own.value v := by
  obtain ⟨start, hlt, hown, hst⟩ := h.vars v hv
  rw [CsvState.value, CsvState.value, hown, hst, h.line, Option.map_some, Option.map_some,
    h.endsNul.strAt_append hlt]

theorem SameTexts.cutReason {type : CsvType} {own st : CsvState} {rest : List Char}
    (h : SameTexts type own st rest) (hreason : .reasonField ∈ type.entryVars) :
    SameTexts type own.cutReason st.cutReason rest := by
  obtain ⟨start, hlt, hown, hst⟩ := h.vars _ hreason
  have hsame : strAt st.line start = strAt own.line start := by
    rw [h.line, h.endsNul.strAt_append hlt]
  unfold CsvState.cutReason
  simp only [hown, hst, hsame]
  split
  · next hlong =>
      have hle := add_length_strAt_le (b := own.line) (Nat.le_of_lt hlt)
      refine ⟨?_, h.endsNul.set _, ?_⟩
      · rw [h.line]
        exact set_append_left _ _ (by omega)
      · simpa only [length_set] using h.vars
  · exact h

theorem SameTexts.texts {type : CsvType} {own st : CsvState} {rest : List Char}
    (h : SameTexts type own st rest) : st.texts type = own.texts type := by
  have hfields : ∀ own st : CsvState, SameTexts type own st rest →
      type.entryVars.map st.value = type.entryVars.map own.value := by
    intro own st h
    exact map_congr_left fun v hv => h.value hv
  have hcut : type.entryVars.map st.cutReason.value = type.entryVars.map own.cutReason.value := by
    cases type with
    | other => rfl
    | kline | rkline | dline | xline | rxline | cresv | nresv =>
      exact hfields _ _ (h.cutReason (by decide))
  rw [CsvState.texts, CsvState.texts, hfields _ _ h, hcut]

theorem CsvType.idxOf_lt (type : CsvType) :
    ∀ v ∈ type.entryVars, type.destVars.idxOf v < type.entryVars.length := by
  cases type <;> decide

theorem setVars_found {type : CsvType} {starts : List Nat}
    (h : type.entryVars.length ≤ starts.length) {v : CsvVar} (hv : v ∈ type.entryVars) :
    ∃ start ∈ starts, ∀ vars, setVars type.destVars starts vars v = some start := by
  have hlt := Nat.lt_of_lt_of_le (type.idxOf_lt v hv) h
  refine ⟨starts[type.destVars.idxOf v], getElem_mem hlt, fun vars => ?_⟩
  rw [setVars, getElem?_eq_getElem hlt, Option.some_or]

theorem csvRead_of_holds {type : CsvType} {line : FileLine} (h : HoldsItsFields type line)
    (st : CsvState) : (csvRead type st line.text).map Prod.snd = some (line.ownTexts type) := by
  rw [csvRead, storeLine_eq, FileLine.ownTexts]
  dsimp only
  rw [line.endsNul_alone.skipsLine_append]
  by_cases hskip : skipsLine line.alone = true
  · rw [if_pos hskip, if_pos hskip, Option.map_some]
  · rw [if_neg hskip, if_neg hskip]
    obtain hskip' | ⟨hinside, hcount⟩ := h
    · exact absurd hskip' hskip
    · have happend := csvFields_append type.destVars.length line.alone
        (st.line.drop (line.text.length + 1)) 0 (Nat.zero_le _) hinside
      have hown : csvFields type.destVars.length line.alone 0 = line.ownFields type := rfl
      obtain ⟨hends, hstarts⟩ := line.ownFields_inside type
      rw [happend, hown]
      dsimp only
      rw [if_neg (by rw [hinside]; decide), Option.map_some]
      have hsame : SameTexts type
          ⟨(line.ownFields type).buf,
            setVars type.destVars (line.ownFields type).starts fun _ => none, []⟩
          ⟨(line.ownFields type).buf ++ st.line.drop (line.text.length + 1),
            setVars type.destVars (line.ownFields type).starts st.vars, st.items⟩
          (st.line.drop (line.text.length + 1)) := by
        refine ⟨rfl, hends, fun v hv => ?_⟩
        obtain ⟨start, hmem, hset⟩ := setVars_found hcount hv
        exact ⟨start, hstarts start hmem, hset fun _ => none, hset st.vars⟩
      exact congrArg (fun texts => some (some texts)) hsame.texts

/-! ### Lines that are read alone -/

theorem fbgetsLoop_feed (n : Nat) (text file : List Char) (hr : '\r' ∉ text) (hf : '\n' ∉ text)
    (hn : text.length < n) : fbgetsLoop n (text ++ '\n' :: file) = (text ++ ['\n'], file) := by
  induction text generalizing n with
  | nil =>
    cases n with
    | zero => cases hn
    | succ n => simp [fbgetsLoop]
  | cons c text ih =>
    cases n with
    | zero => cases hn
    | succ n =>
      rw [mem_cons, not_or] at hr hf
      rw [cons_append, fbgetsLoop, if_neg (Ne.symm hf.1), if_neg (Ne.symm hr.1),
        ih n hr.2 hf.2 (by simpa using hn)]
      rfl

theorem fbgetsLoop_last (n : Nat) (text : List Char) (hr : '\r' ∉ text) (hf : '\n' ∉ text)
    (hn : text.length ≤ n) : fbgetsLoop n text = (text, []) := by
  induction text generalizing n with
  | nil => cases n <;> rfl
  | cons c text ih =>
    cases n with
    | zero => cases hn
    | succ n =>
      rw [mem_cons, not_or] at hr hf
      rw [fbgetsLoop, if_neg (Ne.symm hf.1), if_neg (Ne.symm hr.1),
        ih n hr.2 hf.2 (by simpa using hn)]

theorem FileLine.feed_or (line : FileLine) :
    (∃ text, '\n' ∉ text ∧ line.text = text ++ ['\n']) ∨ '\n' ∉ line.text := by
  have hsplit := dropLast_append_getLast line.nonempty
  by_cases hfeed : line.text.getLast line.nonempty = '\n'
  · refine Or.inl ⟨line.text.dropLast, line.feedLast, ?_⟩
    rw [← hfeed, hsplit]
  · refine Or.inr fun hmem => ?_
    rw [← hsplit, mem_append, mem_singleton] at hmem
    exact hmem.elim line.feedLast (Ne.symm hfeed)

theorem FileLine.noReturn_of {line : FileLine} {text : List Char}
    (h : line.text = text ++ ['\n']) : '\r' ∉ text := by
  intro hmem
  apply line.noReturn
  rw [h]
  exact mem_append_left _ hmem

theorem fbgetsCalls_alone (n : Nat) (line : FileLine) :
    fbgetsCalls IRCD_BUFSIZE (n + 1) line.text = [line.text] := by
  have hloop : fbgetsLoop (IRCD_BUFSIZE - 1) line.text = (line.text, []) := by
    have hfits := line.fits
    obtain ⟨text, hfeed, htext⟩ | hfeed := line.feed_or
    · rw [htext, length_append, length_singleton] at hfits
      rw [htext]
      exact fbgetsLoop_feed _ _ _ (line.noReturn_of htext) hfeed (by omega)
    · exact fbgetsLoop_last _ _ line.noReturn hfeed (by omega)
  cases htext : line.text with
  | nil => exact absurd htext line.nonempty
  | cons c text =>
    rw [htext] at hloop
    rw [fbgetsCalls, fbgets, hloop]
    cases n <;> rfl

theorem fileLines_alone (line : FileLine) : fileLines line.text = [line.text] :=
  fbgetsCalls_alone _ line

theorem fileLines_append (text : List Char) (hr : '\r' ∉ text) (hf : '\n' ∉ text)
    (hlen : text.length < IRCD_BUFSIZE - 1) (line : FileLine) :
    fileLines (text ++ '\n' :: line.text) = [text ++ ['\n'], line.text] := by
  have hloop := fbgetsLoop_feed (IRCD_BUFSIZE - 1) text line.text hr hf hlen
  have hfirst : fbgets IRCD_BUFSIZE (text ++ '\n' :: line.text) =
      some (text ++ ['\n'], line.text) := by
    cases text with
    | nil => exact congrArg some hloop
    | cons c text => exact congrArg some hloop
  have hlength : (text ++ '\n' :: line.text).length =
      text.length + line.text.length + 1 := by
    rw [length_append, length_cons]
    omega
  rw [fileLines, hlength, fbgetsCalls, hfirst]
  dsimp only
  rw [fbgetsCalls_alone]

/-! ### Lines that are not -/

theorem isSome_setVars {dests : List CsvVar} {starts : List Nat} {vars : CsvVar → Option Nat}
    {v : CsvVar} (h : (vars v).isSome) : (setVars dests starts vars v).isSome := by
  rw [setVars, Option.isSome_or, h, Bool.or_true]

/-- A line with a text for each field of every type. -/
def fullLine : FileLine where
  text := "\"a\",\"a\",\"a\"\n".toList
  nonempty := by decide
  fits := by decide
  noReturn := by decide
  feedLast := by decide

theorem fullLine_fields (type : CsvType) :
    skipsLine fullLine.alone = false ∧ (fullLine.ownFields type).overrun = false ∧
      (fullLine.ownFields type).starts.length = type.destVars.length := by
  cases type <;> decide +kernel

theorem csvAdd_vars (env : CsvEnv) (type : CsvType) (st : CsvState) (texts : EntryTexts) :
    (csvAdd env type st texts).vars = st.vars := by
  have hcut : st.cutReason.vars = st.vars := by
    unfold CsvState.cutReason
    split
    · rfl
    · split <;> rfl
  dsimp only [csvAdd]
  split
  · rfl
  · split
    · exact hcut
    · rfl

theorem csvStep_fullLine (env : CsvEnv) (type : CsvType) (buf : List Char) :
    ∃ st, csvStep env type (csvStart buf) fullLine.text = some st ∧
      ∀ v ∈ type.entryVars, (st.vars v).isSome := by
  obtain ⟨hskip, hinside, hcount⟩ := fullLine_fields type
  have happend := csvFields_append type.destVars.length fullLine.alone
    (buf.drop (fullLine.text.length + 1)) 0 (Nat.zero_le _) hinside
  have hown : csvFields type.destVars.length fullLine.alone 0 = fullLine.ownFields type := rfl
  have hprefix : type.entryVars.length ≤ (fullLine.ownFields type).starts.length := by
    rw [hcount]
    cases type <;> decide
  rw [csvStep, csvRead, csvStart, storeLine_eq]
  dsimp only
  rw [fullLine.endsNul_alone.skipsLine_append, hskip, if_neg (by decide), happend, hown]
  dsimp only
  rw [hinside, if_neg (by decide), Option.map_some]
  refine ⟨_, rfl, fun v hv => ?_⟩
  obtain ⟨start, -, hset⟩ := setVars_found hprefix hv
  have hfound := hset fun _ => none
  rw [csvAdd_vars]
  exact Option.isSome_of_eq_some hfound

theorem ReadAlone.inside {type : CsvType} {line : FileLine} (h : ReadAlone type line)
    (hskip : ¬skipsLine line.alone = true) : (line.ownFields type).overrun = false := by
  cases hover : (line.ownFields type).overrun with
  | false => rfl
  | true =>
    have hread := h ⟨fun _ => true, fun _ _ _ => false⟩ (List.replicate IRCD_BUFSIZE 'x')
      line.text [] [] _ length_replicate (fileLines_alone line) rfl
    have hrun := csvFields_overrun type.destVars.length line.alone 0
      (IRCD_BUFSIZE - (line.text.length + 1)) (Nat.zero_le _) hover
    rw [csvRead, csvStart, storeLine_eq, drop_replicate] at hread
    dsimp only at hread
    rw [line.endsNul_alone.skipsLine_append, if_neg hskip, if_pos hrun] at hread
    cases hread

theorem CsvType.length_le_of_idxOf_lt (type : CsvType) (n : Nat)
    (h : ∀ v ∈ type.entryVars, type.destVars.idxOf v < n) : type.entryVars.length ≤ n := by
  cases type with
  | other => exact Nat.zero_le n
  | kline | rkline => exact h .reasonField (by decide)
  | dline => exact h .reasonField (by decide)
  | xline | rxline | cresv | nresv => exact h .reasonField (by decide)

theorem ReadAlone.count {type : CsvType} {line : FileLine} (h : ReadAlone type line)
    (hskip : ¬skipsLine line.alone = true) :
    type.entryVars.length ≤ (line.ownFields type).starts.length := by
  have hinside := h.inside hskip
  obtain ⟨st, hst, hvars⟩ := csvStep_fullLine ⟨fun _ => true, fun _ _ _ => false⟩ type
    (List.replicate IRCD_BUFSIZE 'x')
  have hlines : fileLines (fullLine.text ++ line.text) = [fullLine.text] ++ line.text :: [] := by
    have htext : fullLine.text = "\"a\",\"a\",\"a\"".toList ++ ['\n'] := by decide +kernel
    rw [htext, append_assoc]
    exact fileLines_append _ (by decide) (by decide) (by decide) line
  have hread := h _ _ _ [fullLine.text] [] st length_replicate hlines
    (by rw [foldlM_cons, hst]; rfl)
  have happend := csvFields_append type.destVars.length line.alone
    (st.line.drop (line.text.length + 1)) 0 (Nat.zero_le _) hinside
  have hown : csvFields type.destVars.length line.alone 0 = line.ownFields type := rfl
  rw [csvRead, storeLine_eq, FileLine.ownTexts] at hread
  dsimp only at hread
  rw [line.endsNul_alone.skipsLine_append, if_neg hskip, if_neg hskip, happend, hown] at hread
  dsimp only at hread
  rw [hinside, if_neg (by decide), Option.map_some, Option.some.injEq, Option.some.injEq,
    CsvState.texts, CsvState.texts, EntryTexts.mk.injEq, map_inj_left] at hread
  apply type.length_le_of_idxOf_lt
  intro v hv
  have hvalue := congrArg Option.isSome (hread.1 v hv)
  rw [CsvState.value, CsvState.value, Option.isSome_map, Option.isSome_map,
    isSome_setVars (hvars v hv)] at hvalue
  have hfound : (setVars type.destVars (line.ownFields type).starts (fun _ => none) v).isSome :=
    hvalue.symm
  rw [setVars, Option.or_none] at hfound
  by_contra hlt
  rw [getElem?_eq_none (Nat.le_of_not_lt hlt)] at hfound
  cases hfound

/-- A line is read on its own exactly if it holds its fields. -/
theorem csv_line_alone_iff (type : CsvType) (line : FileLine) :
    ReadAlone type line ↔ HoldsItsFields type line := by
  constructor
  · intro h
    by_cases hskip : skipsLine line.alone = true
    · exact Or.inl hskip
    · exact Or.inr ⟨h.inside hskip, h.count hskip⟩
  · intro h env buf file pre post st _ _ _
    exact csvRead_of_holds h st

/-- A K-line without a host gets the host of the K-line before. -/
def staleFile : List Char := "\"u\",\"h\",\"r\"\n\"x\"\n".toList

theorem csv_line_takes_earlier_host :
    ¬(∀ type line, ReadAlone type line) ∧
      (parseCsvFile ⟨fun _ => true, fun _ _ _ => false⟩ .kline
          (List.replicate IRCD_BUFSIZE '\x00') staleFile).map CsvState.items =
        some [.kline (some ['u']) (some ['h']) (some ['r']),
          .kline (some ['x']) (some ['h']) (some ['r'])] := by
  constructor
  · intro h
    let line : FileLine :=
      ⟨"\"x\"\n".toList, by decide, by decide, by decide, by decide⟩
    have hall := ReadAlone.inside (h .kline line) (by decide +kernel)
    revert hall
    decide +kernel
  · decide +kernel

end Ircd
