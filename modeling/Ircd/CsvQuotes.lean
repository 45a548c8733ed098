import Ircd.Csv

/-!
Calls of `getfield` one after the other, and the quotes of the line they read.

`quoteState` goes through a line character by character and knows no fields. It tells
what `getfield` comes to (`getfield_quoteState`), so that the calls stay inside the line
exactly if the line ends within quotes (`getfield_inside_iff`): behind the last field the
search for one more opening quote runs over the end of the line.
-/

namespace Ircd

/-! ### Calls -/

/-- A call of `getfield` with the `line` that the last one has left, `NULL` for none: the
field and the `line` it leaves, unless it reads behind the end. -/
def getfieldNext : Option CStr → Option (Option CStr × Option CStr)
  | none => some (none, none)
  | some line =>
    match getfield line with
    | .field text rest => some (some text, some rest)
    | .null => some (none, none)
    | .overrun => none

/-- What the first `n` calls return. -/
def getfieldCalls : Nat → Option CStr → Option (List (Option CStr))
  | 0, _ => some []
  | n + 1, line =>
    match getfieldNext line with
    | none => none
    | some (field, line) => (getfieldCalls n line).map (field :: ·)

/-- No call reads behind the end of the line, and from the `k`-th on they return `NULL`. -/
def StaysInside (line : CStr) : Prop :=
  ∃ k, ∀ n, ∃ fields, getfieldCalls n (some line) = some fields ∧
    ∀ i < n, k ≤ i → fields[i]? = some none

/-! ### Quotes -/

/-- Where a character of a line stands: outside quotes, inside, behind a backslash inside,
or behind a line feed inside. -/
inductive QuoteState where
  | outside
  | inside
  | escaped
  | done
  deriving DecidableEq, Repr

def QuoteState.next : QuoteState → Char → QuoteState
  | .outside, c => if c = '"' then .inside else .outside
  | .inside, c =>
    if c = '\n' then .done else if c = '\\' then .escaped else if c = '"' then .outside else .inside
  | .escaped, _ => .inside
  | .done, _ => .done

/-- Where the end of a line stands. -/
def quoteState (line : CStr) : QuoteState := line.foldl QuoteState.next .outside

/-- The line ends within quotes, and not behind a backslash. -/
def EndsQuoted (line : CStr) : Prop := quoteState line = .inside ∨ quoteState line = .done

instance (line : CStr) : Decidable (EndsQuoted line) := inferInstanceAs (Decidable (_ ∨ _))

theorem foldl_done (s : CStr) : s.foldl QuoteState.next .done = .done := by
  induction s with
  | nil => rfl
  | cons c s ih => exact ih

theorem foldl_outside (s : CStr) :
    s.foldl QuoteState.next .outside =
      match s.dropWhile (· ≠ '"') with
      | [] => .outside
      | _ :: rest => rest.foldl QuoteState.next .inside := by
  induction s with
  | nil => rfl
  | cons c s ih =>
    by_cases hc : c = '"'
    · simp [hc, QuoteState.next]
    · simpa [hc, QuoteState.next] using ih

theorem scanField_quoteState (text s : CStr) :
    match scanField text s with
    | .field _ rest => s.foldl QuoteState.next .inside = quoteState rest ∧ rest.length < s.length
    | .null => s.foldl QuoteState.next .inside = .inside ∨ s.foldl QuoteState.next .inside = .done
    | .overrun => s.foldl QuoteState.next .inside = .escaped := by
  fun_induction scanField text s with
  | case1 text => exact Or.inl rfl
  | case2 text s => exact Or.inr (foldl_done s)
  | case3 text hline => rfl
  | case4 text d s hline ih =>
    have hstep : ('\\' :: d :: s).foldl QuoteState.next .inside =
        s.foldl QuoteState.next .inside := rfl
    rw [hstep]
    split at ih
    · exact ⟨ih.1, ih.2.trans (by simp only [List.length_cons]; omega)⟩
    · exact ih
    · exact ih
  | case5 text s hline hback => exact ⟨by simp [QuoteState.next, quoteState], by simp⟩
  | case6 text c s hline hback hquote ih =>
    have hstep : (c :: s).foldl QuoteState.next .inside = s.foldl QuoteState.next .inside := by
      simp [QuoteState.next, hline, hback, hquote]
    rw [hstep]
    split at ih
    · exact ⟨ih.1, ih.2.trans (by simp)⟩
    · exact ih
    · exact ih

theorem getfield_quoteState (line : CStr) :
    match getfield line with
    | .field _ rest => quoteState line = quoteState rest ∧ rest.length < line.length
    | .null => EndsQuoted line
    | .overrun => ¬EndsQuoted line := by
  have hlen : (line.dropWhile (· ≠ '"')).length ≤ line.length := (List.dropWhile_suffix _).length_le
  unfold getfield EndsQuoted
  rw [quoteState, foldl_outside]
  cases hdrop : line.dropWhile (· ≠ '"') with
  | nil => simp
  | cons q s =>
    rw [hdrop, List.length_cons] at hlen
    have hscan := scanField_quoteState [] s
    dsimp only
    split at hscan
    · exact ⟨hscan.1, by omega⟩
    · exact hscan
    · rw [hscan]
      simp

/-! ### The calls stay inside -/

theorem getfieldCalls_none (n : Nat) :
    getfieldCalls n none = some (List.replicate n none) := by
  induction n with
  | zero => rfl
  | succ n ih =>
    simp only [getfieldCalls, getfieldNext, ih, Option.map_some, List.replicate_succ]

theorem staysInside_of_endsQuoted {line : CStr} (h : EndsQuoted line) : StaysInside line := by
  induction hlen : line.length using Nat.strongRecOn generalizing line with
  | ind m ih =>
    have hread := getfield_quoteState line
    cases hfield : getfield line with
    | overrun =>
      rw [hfield] at hread
      exact absurd h hread
    | null =>
      refine ⟨0, fun n => ?_⟩
      cases n with
      | zero => exact ⟨[], rfl, fun i hi => absurd hi (Nat.not_lt_zero i)⟩
      | succ n =>
        refine ⟨List.replicate (n + 1) none, ?_, fun i hi _ => ?_⟩
        · simp only [getfieldCalls, getfieldNext, hfield, getfieldCalls_none,
            Option.map_some, List.replicate_succ]
        · rw [List.getElem?_replicate, if_pos hi]
    | field text rest =>
      rw [hfield] at hread
      obtain ⟨hstate, hlt⟩ := hread
      have hrest : EndsQuoted rest := by
        unfold EndsQuoted
        rwa [← hstate]
      obtain ⟨k, hk⟩ := ih rest.length (hlen ▸ hlt) hrest rfl
      refine ⟨k + 1, fun n => ?_⟩
      cases n with
      | zero => exact ⟨[], rfl, fun i hi => absurd hi (Nat.not_lt_zero i)⟩
      | succ n =>
        obtain ⟨fields, hcalls, hnull⟩ := hk n
        refine ⟨some text :: fields, ?_, fun i hi hki => ?_⟩
        · simp only [getfieldCalls, getfieldNext, hfield, hcalls, Option.map_some]
        · cases i with
          | zero => cases hki
          | succ i =>
            rw [List.getElem?_cons_succ]
            exact hnull i (Nat.lt_of_succ_lt_succ hi) (Nat.le_of_succ_le_succ hki)

theorem exists_overrun {line : CStr} (h : ¬EndsQuoted line) :
    ∃ n, getfieldCalls n (some line) = none := by
  induction hlen : line.length using Nat.strongRecOn generalizing line with
  | ind m ih =>
    have hread := getfield_quoteState line
    cases hfield : getfield line with
    | overrun => exact ⟨1, by simp only [getfieldCalls, getfieldNext, hfield]⟩
    | null =>
      rw [hfield] at hread
      exact absurd hread h
    | field text rest =>
      rw [hfield] at hread
      obtain ⟨hstate, hlt⟩ := hread
      have hrest : ¬EndsQuoted rest := by
        unfold EndsQuoted
        rwa [← hstate]
      obtain ⟨n, hn⟩ := ih rest.length (hlen ▸ hlt) hrest rfl
      exact ⟨n + 1, by simp only [getfieldCalls, getfieldNext, hfield, hn, Option.map_none]⟩

/-- The calls of `getfield` on a line stay inside it exactly if it ends within quotes. -/
theorem getfield_inside_iff (line : CStr) : StaysInside line ↔ EndsQuoted line := by
  constructor
  · rintro ⟨k, hk⟩
    by_contra hends
    obtain ⟨n, hn⟩ := exists_overrun hends
    obtain ⟨fields, hcalls, -⟩ := hk n
    rw [hn] at hcalls
    cases hcalls
  · exact staysInside_of_endsQuoted

/-- A complete line is overrun by one call more than it has fields, and a line that ends in
a backslash by the first. -/
theorem getfield_runs_out :
    ¬(∀ line, StaysInside line) ∧ getfieldCalls 2 (some "\"u\"".toList) = none ∧
      getfieldCalls 1 (some "\"u\\".toList) = none := by
  refine ⟨fun h => ?_, by decide +kernel, by decide +kernel⟩
  obtain ⟨k, hk⟩ := h "\"u\"".toList
  obtain ⟨fields, hcalls, -⟩ := hk 2
  have hnone : getfieldCalls 2 (some "\"u\"".toList) = none := by decide +kernel
  rw [hnone] at hcalls
  cases hcalls

end Ircd
