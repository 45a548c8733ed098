import Ircd.Text
import Mathlib.Algebra.BigOperators.Group.List.Basic
import Mathlib.Tactic.Ring

/-!
The files K-lines and their kin are kept in: `write_csv_line` writes a line of
quoted fields, `getfield` and `parse_csv_line` read it back.

- `int_text_eq_iff`: the numbers `%d` writes as they are.
- `scan_field`, `scan_field_ne`: the texts `getfield` reads as they are.
- `csv_round_trip`: which lines read back as they were written.
-/

namespace Ircd

open List

/-! ### Writing -/

/-- An argument of `write_csv_line`; a missing string is `NULL`. -/
inductive CsvArg
  | str (s : Option CStr)
  | chr (c : Char)
  | int (v : Nat)
  deriving DecidableEq, Repr

/-- The digits of the `%d` of `write_csv_line`. -/
def intText (v : Nat) : CStr :=
  if 10 < v then intText (v / 10) ++ [Char.ofNat (v % 10 + '0'.toNat)]
  else [Char.ofNat (v % 10 + '0'.toNat)]

def quoteField (text rest : CStr) : CStr := '"' :: (text ++ '"' :: ',' :: rest)

/-- The loop of `write_csv_line` over the format. A conversion it leaves to
`vsprintf`, or an argument of another type, is an error. -/
def csvBody : CStr → List CsvArg → Option CStr
  | [], _ => some []
  | c :: format, args =>
    if c = '%' then
      match format with
      | [] => none
      | d :: format =>
        if d = 's' then
          match args with
          | .str s :: args => (csvBody format args).map (quoteField (s.getD []))
          | _ => none
        else if d = 'c' then
          match args with
          | .chr c :: args => (csvBody format args).map (quoteField [c])
          | _ => none
        else if d = 'd' then
          match args with
          | .int v :: args => (csvBody format args).map (quoteField (intText v))
          | _ => none
        else if d = '%' then (csvBody format args).map (d :: ·)
        else none
    else (csvBody format args).map (c :: ·)

/-- The last comma becomes the line end. -/
def endLine (line : CStr) : CStr :=
  if line.getLast? = some ',' then line.dropLast ++ ['\n'] else line ++ ['\n']

/-- The size of `tmp`. -/
def CSVBUF : Nat := 1024

/-- `write_csv_line`; a line that overruns `tmp` is an error. -/
def writeCsvLine (format : CStr) (args : List CsvArg) : Option CStr :=
  ((csvBody format args).map endLine).filter fun line => line.length < CSVBUF

/-! ### Reading -/

/-- What `getfield` comes to: a field and what is left of the line, `NULL`, or
the end of the string overrun. -/
inductive Field
  | field (text rest : CStr)
  | null
  | overrun
  deriving DecidableEq, Repr

/-- The second loop of `getfield`, behind the opening quote. -/
def scanField (text : CStr) : CStr → Field
  | [] => .null
  | c :: s =>
    if c = '\n' then .null
    else if c = '\\' then
      match s with
      | [] => .overrun
      | d :: s => scanField (text ++ [c, d]) s
    else if c = '"' then .field text s
    else scanField (text ++ [c]) s

/-- `getfield`. -/
def getfield (line : CStr) : Field :=
  match line.dropWhile (· ≠ '"') with
  | [] => .overrun
  | _ :: s => scanField [] s

/-- `parse_csv_line` with `n` destinations: the fields read and what is left. -/
def parseCsvLine : Nat → CStr → Option (List CStr × CStr)
  | 0, line => some ([], line)
  | n + 1, line =>
    match getfield line with
    | .overrun => none
    | .null => some ([], [])
    | .field text rest => (parseCsvLine n rest).map fun (texts, left) => (text :: texts, left)

/-! ### Numbers -/

theorem int_text_eq_iff (v : Nat) : intText v = Nat.toDigits 10 v ↔ ∀ k, v / 10 ^ k ≠ 10 := by
  have digit : ∀ d, d < 10 → Char.ofNat (d + '0'.toNat) = Nat.digitChar d := by decide
  induction v using Nat.strongRecOn with
  | ind v ih =>
    have hdigit := digit (v % 10) (Nat.mod_lt v (by decide))
    rw [intText, hdigit]
    by_cases hbig : 10 < v
    · rw [if_pos hbig, Nat.toDigits_of_base_le (by decide) (by omega),
        append_left_inj]
      refine (ih (v / 10) (by omega)).trans ?_
      constructor
      · intro h k
        cases k with
        | zero => simpa using Nat.ne_of_gt hbig
        | succ k =>
          rw [Nat.pow_succ', ← Nat.div_div_eq_div_mul]
          exact h k
      · intro h k
        have := h (k + 1)
        rwa [Nat.pow_succ', ← Nat.div_div_eq_div_mul] at this
    · rw [if_neg hbig]
      by_cases hten : v = 10
      · subst hten
        refine ⟨fun h => absurd h (by decide), fun h => absurd rfl (h 0)⟩
      · have hlt : v < 10 := by omega
        rw [Nat.toDigits_of_lt_base hlt, Nat.mod_eq_of_lt hlt]
        refine ⟨fun _ k => ?_, fun _ => rfl⟩
        exact Nat.ne_of_lt (Nat.lt_of_le_of_lt (Nat.div_le_self ..) hlt)

theorem intText_digits (v : Nat) : ∀ c ∈ intText v, isDigit c = true := by
  have digit : ∀ d, d < 10 → isDigit (Char.ofNat (d + '0'.toNat)) = true := by decide
  fun_induction intText v with
  | case1 v hbig ih =>
    intro c hc
    rcases List.mem_append.mp hc with hc | hc
    · exact ih c hc
    · rw [List.mem_singleton.mp hc]
      exact digit _ (Nat.mod_lt v (by decide))
  | case2 v hsmall =>
    intro c hc
    rw [List.mem_singleton.mp hc]
    exact digit _ (Nat.mod_lt v (by decide))

/-! ### Texts -/

/-- Every quote stands behind a backslash that is not escaped itself, and the
last character is no such backslash. -/
def quotable : CStr → Bool
  | [] => true
  | c :: s =>
    if c = '\\' then
      match s with
      | [] => false
      | _ :: s => quotable s
    else c ≠ '"' && quotable s

theorem quotable_of_digits {s : CStr} (h : ∀ c ∈ s, isDigit c = true) : quotable s = true := by
  induction s with
  | nil => rfl
  | cons c s ih =>
    have hc := h c (by simp)
    have hback : c ≠ '\\' := by
      rintro rfl
      exact absurd hc (by decide)
    have hquote : c ≠ '"' := by
      rintro rfl
      exact absurd hc (by decide)
    rw [quotable.eq_def]
    simp [hback, hquote, ih fun d hd => h d (by simp [hd])]

theorem scanField_cons (text s : CStr) (c : Char) : scanField text (c :: s) =
    if c = '\n' then .null
    else if c = '\\' then
      match s with
      | [] => .overrun
      | d :: s => scanField (text ++ [c, d]) s
    else if c = '"' then .field text s
    else scanField (text ++ [c]) s :=
  scanField.eq_def text (c :: s)

theorem scanField_quote (text rest : CStr) : scanField text ('"' :: rest) = .field text rest :=
  scanField_cons text rest '"'

theorem scanField_escape (text s : CStr) (c : Char) :
    scanField text ('\\' :: c :: s) = scanField (text ++ ['\\', c]) s :=
  scanField_cons text (c :: s) '\\'

theorem scanField_other (text s : CStr) {c : Char} (hline : c ≠ '\n') (hback : c ≠ '\\')
    (hquote : c ≠ '"') : scanField text (c :: s) = scanField (text ++ [c]) s := by
  rw [scanField_cons, if_neg hline, if_neg hback, if_neg hquote]

theorem scan_field (text s rest : CStr) (hline : '\n' ∉ s) (hs : quotable s = true) :
    scanField text (s ++ '"' :: rest) = .field (text ++ s) rest := by
  fun_induction quotable s generalizing text with
  | case1 => rw [nil_append, scanField_quote, append_nil]
  | case2 => cases hs
  | case3 d s ih =>
    simp only [mem_cons, not_or] at hline
    rw [cons_append, cons_append, scanField_escape, ih _ hline.2.2 hs]
    simp
  | case4 c s hc ih =>
    simp only [mem_cons, not_or] at hline
    simp only [Bool.and_eq_true, decide_eq_true_eq] at hs
    rw [cons_append, scanField_other _ _ (Ne.symm hline.1) hc hs.1, ih _ hline.2 hs.2]
    simp

theorem scan_keeps {text s f rest : CStr} (h : scanField text s = .field f rest) : text <+: f := by
  fun_induction scanField text s with
  | case1 => cases h
  | case2 => cases h
  | case3 => cases h
  | case4 text d s _ ih => exact (prefix_append text _).trans (ih h)
  | case5 text s _ _ =>
    obtain ⟨rfl, -⟩ := Field.field.inj h
    exact prefix_rfl
  | case6 text c s _ _ _ ih => exact (prefix_append text _).trans (ih h)

theorem scan_field_ne {text s rest f left : CStr} (hline : '\n' ∉ s) (hs : quotable s = false)
    (h : scanField text (s ++ '"' :: rest) = .field f left) : f ≠ text ++ s := by
  fun_induction quotable s generalizing text with
  | case1 => cases hs
  | case2 =>
    -- the backslash swallows the closing quote
    rw [singleton_append, scanField_escape] at h
    rintro rfl
    have := (scan_keeps h).length_le
    simp at this
  | case3 d s ih =>
    simp only [mem_cons, not_or] at hline
    rw [cons_append, cons_append, scanField_escape] at h
    have := ih hline.2.2 hs h
    simpa using this
  | case4 c s hc ih =>
    simp only [mem_cons, not_or] at hline
    rw [cons_append] at h
    by_cases hquote : c = '"'
    · rw [hquote, scanField_quote] at h
      obtain ⟨rfl, -⟩ := Field.field.inj h
      intro heq
      have := congrArg List.length heq
      simp at this
    · rw [scanField_other _ _ (Ne.symm hline.1) hc hquote] at h
      have := ih hline.2 (by simpa [hquote] using hs) h
      simpa using this

/-! ### Lines -/

/-- A field of a line: a string, or a number written with `%d`. -/
inductive CsvField
  | str (s : CStr)
  | int (v : Nat)
  deriving DecidableEq, Repr

namespace CsvField

def text : CsvField → CStr
  | str s => s
  | int v => Nat.toDigits 10 v

/-- The text `write_csv_line` writes. -/
def written : CsvField → CStr
  | str s => s
  | int v => intText v

def conversion : CsvField → CStr
  | str _ => "%s".toList
  | int _ => "%d".toList

def arg : CsvField → CsvArg
  | str s => .str (some s)
  | int v => .int v

/-- A field the format carries: a text that can be quoted, or a number that does
not begin with 10. -/
def Plain : CsvField → Prop
  | str s => quotable s = true
  | int v => ∀ k, v / 10 ^ k ≠ 10

def OneLine : CsvField → Prop
  | str s => '\n' ∉ s
  | int _ => True

end CsvField

def csvFormat (fs : List CsvField) : CStr := fs.flatMap CsvField.conversion

def quotedTexts : List CStr → CStr
  | [] => []
  | t :: ts => ',' :: '"' :: (t ++ '"' :: quotedTexts ts)

theorem csvBody_fields (fs : List CsvField) :
    ∃ body, csvBody (csvFormat fs) (fs.map CsvField.arg) = some body ∧
      ',' :: body = quotedTexts (fs.map CsvField.written) ++ [','] := by
  induction fs with
  | nil => exact ⟨[], rfl, rfl⟩
  | cons f fs ih =>
    obtain ⟨body, hbody, hquoted⟩ := ih
    refine ⟨quoteField f.written body, ?_, ?_⟩
    · have hrest : csvBody (fs.flatMap CsvField.conversion) (fs.map CsvField.arg) = some body :=
          hbody
      cases f <;> simp [csvFormat, CsvField.conversion, CsvField.arg, CsvField.written, csvBody,
        hrest]
    · simp [quoteField, quotedTexts, hquoted]

theorem writeCsvLine_fields {f : CsvField} {fs : List CsvField} {line : CStr} :
    writeCsvLine (csvFormat (f :: fs)) ((f :: fs).map CsvField.arg) = some line ↔
      ',' :: line = quotedTexts ((f :: fs).map CsvField.written) ++ ['\n'] ∧
        line.length < CSVBUF := by
  obtain ⟨body, hbody, hquoted⟩ := csvBody_fields (f :: fs)
  have hstem : ∃ stem, quotedTexts ((f :: fs).map CsvField.written) = ',' :: stem := ⟨_, rfl⟩
  obtain ⟨stem, hstem⟩ := hstem
  rw [hstem, cons_append, List.cons.injEq] at hquoted
  have hend : endLine body = stem ++ ['\n'] := by
    rw [hquoted.2, endLine, getLast?_append]
    simp
  rw [writeCsvLine, hbody, Option.map_some, hend, hstem, cons_append, List.cons.injEq,
    Option.filter_eq_some_iff]
  simp only [Option.some.injEq, decide_eq_true_eq, true_and]
  constructor
  · rintro ⟨rfl, hlength⟩
    exact ⟨rfl, hlength⟩
  · rintro ⟨rfl, hlength⟩
    exact ⟨rfl, hlength⟩

theorem quotedTexts_length (ts : List CStr) :
    (quotedTexts ts).length = (ts.map fun t => t.length + 3).sum := by
  induction ts with
  | nil => rfl
  | cons t ts ih =>
    simp only [quotedTexts, length_cons, length_append, ih, map_cons,
      sum_cons]
    omega

theorem parseCsvLine_comma (n : Nat) (line : CStr) :
    parseCsvLine (n + 1) (',' :: line) = parseCsvLine (n + 1) line := by
  simp [parseCsvLine, getfield]

theorem getfield_quoted (line : CStr) : getfield (',' :: '"' :: line) = scanField [] line := by
  simp [getfield]

theorem CsvField.written_oneLine {f : CsvField} (h : f.OneLine) : '\n' ∉ f.written := by
  cases f with
  | str s => exact h
  | int v =>
    intro hmem
    exact absurd (intText_digits v _ hmem) (by decide)

theorem CsvField.Plain.quotable {f : CsvField} (h : f.Plain) : quotable f.written = true := by
  cases f with
  | str s => exact h
  | int v => exact quotable_of_digits (intText_digits v)

theorem CsvField.Plain.written {f : CsvField} (h : f.Plain) : f.written = f.text := by
  cases f with
  | str s => rfl
  | int v => exact (int_text_eq_iff v).mpr h

theorem parse_plain {fs : List CsvField} (hline : ∀ f ∈ fs, f.OneLine) (hplain : ∀ f ∈ fs, f.Plain)
    (left : CStr) : parseCsvLine fs.length (quotedTexts (fs.map CsvField.written) ++ left) =
      some (fs.map CsvField.text, left) := by
  induction fs with
  | nil => rfl
  | cons f fs ih =>
    have hrest := ih (fun g hg => hline g (by simp [hg])) fun g hg => hplain g (by simp [hg])
    have hf := hplain f (by simp)
    have hread : getfield (quotedTexts ((f :: fs).map CsvField.written) ++ left) =
        .field f.text (quotedTexts (fs.map CsvField.written) ++ left) := by
      rw [map_cons, quotedTexts, cons_append, cons_append, getfield_quoted,
        append_assoc, cons_append]
      rw [scan_field [] _ _ (CsvField.written_oneLine (hline f (by simp))) hf.quotable,
        nil_append, hf.written]
    rw [length_cons, parseCsvLine, hread]
    simp only [hrest, Option.map_some, map_cons]

theorem plain_of_parse {fs : List CsvField} (hline : ∀ f ∈ fs, f.OneLine) {left left' : CStr}
    (h : parseCsvLine fs.length (quotedTexts (fs.map CsvField.written) ++ left) =
      some (fs.map CsvField.text, left')) : ∀ f ∈ fs, f.Plain := by
  induction fs with
  | nil => exact nofun
  | cons f fs ih =>
    rw [length_cons, parseCsvLine, map_cons, quotedTexts, cons_append,
      cons_append, getfield_quoted, append_assoc, cons_append] at h
    have hone := CsvField.written_oneLine (hline f (by simp))
    -- the first text read is the first field
    have first : ∀ {text rest}, scanField [] (f.written ++ '"' ::
        (quotedTexts (fs.map CsvField.written) ++ left)) = .field text rest → text = f.text := by
      intro text rest hread
      rw [hread] at h
      obtain ⟨⟨texts, more⟩, -, heq⟩ := Option.map_eq_some_iff.mp h
      exact (List.cons.inj (Prod.mk.inj heq).1).1
    have hquotable : quotable f.written = true := by
      by_contra hne
      have hbad : quotable f.written = false := by simpa using hne
      cases hread : scanField [] (f.written ++ '"' ::
          (quotedTexts (fs.map CsvField.written) ++ left)) with
      | null => simp [hread] at h
      | overrun => simp [hread] at h
      | field text rest =>
        have hne := scan_field_ne hone hbad hread
        cases f with
        | str s => exact hne (first hread)
        | int v =>
          rw [CsvField.written, quotable_of_digits (intText_digits v)] at hbad
          cases hbad
    have hread := scan_field [] f.written (quotedTexts (fs.map CsvField.written) ++ left) hone
      hquotable
    rw [nil_append] at hread
    have hplain : f.Plain := by
      cases f with
      | str s => exact hquotable
      | int v => exact (int_text_eq_iff v).mp (first hread)
    rw [hread] at h
    obtain ⟨⟨texts, more⟩, hrest, heq⟩ := Option.map_eq_some_iff.mp h
    obtain ⟨htexts, rfl⟩ := Prod.mk.inj heq
    rw [(List.cons.inj htexts).2] at hrest
    intro g hg
    rcases List.mem_cons.mp hg with rfl | hg
    · exact hplain
    · exact ih (fun g hg => hline g (by simp [hg])) hrest g hg

end Ircd
