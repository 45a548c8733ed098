import Mathlib.Data.List.Basic
import Mathlib.Algebra.BigOperators.Group.List.Basic
import Mathlib.Algebra.Ring.Nat

/-!
`clean_string` of `irc_string.c`, which makes a text printable in a buffer.

The room left is a `size_t` that goes down by two for a character that is escaped, and the loop
only asks whether it is 0. `clean_string_iff` says when it steps over it.
-/

namespace Ircd

open List

namespace CleanString

/-- The buffer, the room that is counted, and whether the count has gone below 0. -/
structure CleanState where
  out : List UInt8
  len : Nat
  wrapped : Bool
  deriving DecidableEq

namespace CleanState

/-- `*d++ = c`. -/
def write (s : CleanState) (c : UInt8) : CleanState := { s with out := s.out ++ [c] }

/-- `--len`. -/
def less (s : CleanState) : CleanState :=
  { s with len := (s.len + 2 ^ 64 - 1) % 2 ^ 64, wrapped := s.wrapped || s.len == 0 }

end CleanState

def highBit (c : UInt8) : Bool := decide (0x80 ≤ c.toNat)

/-- `IsPrint`. -/
def isPrint (c : UInt8) : Bool := decide (0x20 ≤ c.toNat) && decide (c.toNat ≤ 0x7e)

/-- The body of the loop, in front of its last `--len`. -/
def CleanState.char (s : CleanState) (c : UInt8) : CleanState :=
  if highBit c then (s.write 0x2e).less
  else if !isPrint c then ((s.write 0x5e).less).write (0x40 + c)
  else s.write c

/-- The loop. A text is the list of its bytes without the NUL. -/
def cleanLoop (s : CleanState) : List UInt8 → CleanState
  | [] => s
  | c :: src => if 0 < s.len then cleanLoop (s.char c).less src else s

/-- `clean_string`; the NUL comes behind `out`. -/
def cleanString (src : List UInt8) (len : Nat) : CleanState :=
  cleanLoop ⟨[], (len + 2 ^ 64 - 3) % 2 ^ 64, false⟩ src

def render (c : UInt8) : List UInt8 :=
  if highBit c then [0x2e] else if isPrint c then [c] else [0x5e, 0x40 + c]

def isEscaped (c : UInt8) : Bool := highBit c || !isPrint c

/-- How much a character takes off the room. -/
def cost (c : UInt8) : Nat := if isEscaped c then 2 else 1

/-- The length of a buffer, a `size_t` of at least 3. -/
structure BufLen where
  len : Nat
  le : 3 ≤ len
  lt : len < 2 ^ 64

/-- `clean_string` stays in the buffer, with the NUL, and in its count, and the result is that of
a part of the source. -/
def CleanRight (src : List UInt8) (b : BufLen) : Prop :=
  (cleanString src b.len).out.length + 1 ≤ b.len ∧ (cleanString src b.len).wrapped = false ∧
    ∃ part, part <+: src ∧ (cleanString src b.len).out = part.flatMap render

theorem length_render_le (c : UInt8) : (render c).length ≤ cost c := by
  unfold render cost isEscaped
  cases highBit c with
  | true => exact Nat.le_succ 1
  | false =>
    cases isPrint c with
    | true => exact Nat.le_refl 1
    | false => exact Nat.le_refl 2

theorem length_flatMap_render_le (part : List UInt8) :
    (part.flatMap render).length ≤ (part.map cost).sum := by
  induction part with
  | nil => exact Nat.le_refl 0
  | cons c part ih =>
    rw [flatMap_cons, length_append, map_cons, sum_cons]
    exact Nat.add_le_add (length_render_le c) ih

theorem char_less {s : CleanState} (hpos : 0 < s.len) (hlt : s.len < 2 ^ 64) (c : UInt8) :
    (s.char c).less.out = s.out ++ render c ∧
      (s.char c).less.wrapped = (s.wrapped || decide (s.len < cost c)) ∧
      (cost c ≤ s.len → (s.char c).less.len = s.len - cost c) := by
  have hfirst : (s.len + 2 ^ 64 - 1) % 2 ^ 64 = s.len - 1 := by
    rw [Nat.sub_add_comm (by omega), Nat.add_mod_right, Nat.mod_eq_of_lt (by omega)]
  have hzero : (s.len == 0) = false := beq_false_of_ne (Nat.ne_of_gt hpos)
  have hsecond : 2 ≤ s.len → (s.len - 1 + 2 ^ 64 - 1) % 2 ^ 64 = s.len - 2 := by
    intro hle
    rw [Nat.sub_add_comm (by omega), Nat.add_mod_right, Nat.mod_eq_of_lt (by omega), Nat.sub_sub]
  have hlast : (s.len - 1 == 0) = decide (s.len < 2) := by
    rw [Bool.eq_iff_iff, beq_iff_eq, decide_eq_true_eq]
    omega
  have hone : decide (s.len < 1) = false := decide_eq_false (Nat.not_lt.mpr hpos)
  unfold CleanState.char render cost isEscaped
  cases highBit c with
  | true =>
    simp only [if_true, Bool.true_or, CleanState.write, CleanState.less, hfirst, hzero, hlast,
      Bool.or_false, true_and]
    exact hsecond
  | false =>
    cases isPrint c with
    | true =>
      simp only [Bool.false_eq_true, if_false, if_true, Bool.not_true, Bool.or_false,
        CleanState.write, CleanState.less, hfirst, hzero, hone, true_and, implies_true]
    | false =>
      simp only [Bool.false_eq_true, if_false, if_true, Bool.not_false, Bool.or_true,
        CleanState.write, CleanState.less, hfirst, hzero, hlast, Bool.or_false, true_and]
      exact ⟨append_assoc .., hsecond⟩

theorem wrapped_cleanLoop {s : CleanState} (h : s.wrapped = true) (src : List UInt8) :
    (cleanLoop s src).wrapped = true := by
  have hless : ∀ {s : CleanState}, s.wrapped = true → s.less.wrapped = true := by
    intro s h
    rw [CleanState.less, h, Bool.true_or]
  induction src generalizing s with
  | nil => exact h
  | cons c src ih =>
    rw [cleanLoop]
    split
    · refine ih (hless ?_)
      unfold CleanState.char
      split
      · exact hless h
      · split
        · exact hless h
        · exact h
    · exact h

/-- The count goes below 0 just at an escaped character for which it is 1; before that, what is
written is that of a part of the source for which there is room. -/
theorem cleanLoop_spec {s : CleanState} (hlt : s.len < 2 ^ 64) (hs : s.wrapped = false)
    (src : List UInt8) :
    ((cleanLoop s src).wrapped = true ↔
        ∃ part c rest, src = part ++ c :: rest ∧ isEscaped c = true ∧
          (part.map cost).sum + 1 = s.len) ∧
      ((cleanLoop s src).wrapped = false → ∃ part, part <+: src ∧
        (cleanLoop s src).out = s.out ++ part.flatMap render ∧ (part.map cost).sum ≤ s.len) := by
  induction src generalizing s with
  | nil =>
    refine ⟨iff_of_false (by rw [cleanLoop, hs]; exact Bool.false_ne_true) ?_, fun _ =>
      ⟨[], nil_prefix, (append_nil _).symm, Nat.zero_le _⟩⟩
    rintro ⟨part, c, rest, hsplit, -⟩
    cases part with
    | nil => cases hsplit
    | cons d part => cases hsplit
  | cons c src ih =>
    rw [cleanLoop]
    by_cases hpos : 0 < s.len
    swap
    · rw [if_neg hpos]
      refine ⟨iff_of_false (by rw [hs]; exact Bool.false_ne_true) ?_, fun _ =>
        ⟨[], nil_prefix, (append_nil _).symm, Nat.zero_le _⟩⟩
      rintro ⟨part, d, rest, -, -, hcost⟩
      omega
    rw [if_pos hpos]
    obtain ⟨hout, hwrapped, hlen⟩ := char_less hpos hlt c
    rw [hs, Bool.false_or] at hwrapped
    by_cases hroom : cost c ≤ s.len
    · -- the loop goes on with less room
      specialize hlen hroom
      rw [decide_eq_false (Nat.not_lt.mpr hroom)] at hwrapped
      obtain ⟨hover, hpart⟩ := ih (by omega) hwrapped
      rw [hlen] at hover hpart
      refine ⟨hover.trans ⟨?_, ?_⟩, fun hin => ?_⟩
      · rintro ⟨part, d, rest, rfl, hd, hcost⟩
        refine ⟨c :: part, d, rest, rfl, hd, ?_⟩
        rw [map_cons, sum_cons, Nat.add_assoc, hcost, Nat.add_sub_cancel' hroom]
      · rintro ⟨part, d, rest, hsplit, hd, hcost⟩
        cases part with
        | nil =>
          -- an escaped character takes two
          cases hsplit
          rw [cost, if_pos hd] at hroom
          rw [map_nil, sum_nil] at hcost
          omega
        | cons b part =>
          cases hsplit
          rw [map_cons, sum_cons, Nat.add_assoc] at hcost
          exact ⟨part, d, rest, rfl, hd, (Nat.sub_eq_of_eq_add' hcost.symm).symm⟩
      · obtain ⟨part, hprefix, hwritten, hcost⟩ := hpart hin
        refine ⟨c :: part, List.cons_prefix_cons.mpr ⟨rfl, hprefix⟩, ?_, ?_⟩
        · rw [hwritten, hout, append_assoc, flatMap_cons]
        · rw [map_cons, sum_cons]
          omega
    · rw [decide_eq_true (Nat.lt_of_not_le hroom)] at hwrapped
      have hend := wrapped_cleanLoop hwrapped src
      refine ⟨iff_of_true hend ⟨[], c, src, rfl, ?_, ?_⟩, fun hin => ?_⟩
      · by_contra hplain
        rw [cost, if_neg hplain] at hroom
        exact hroom hpos
      · have hcost : cost c ≤ 2 := by
          unfold cost
          split
          · exact Nat.le_refl 2
          · exact Nat.le_succ 1
        rw [map_nil, sum_nil]
        omega
      · rw [hend] at hin
        cases hin

/-- `clean_string` is right about a source just when no escaped character stands where the count
is 1, which is where those in front of it have taken all but four of the length. -/
theorem clean_string_iff (src : List UInt8) (b : BufLen) : CleanRight src b ↔
    ∀ part c rest, src = part ++ c :: rest → isEscaped c = true →
      (part.map cost).sum + 4 ≠ b.len := by
  have hle := b.le
  have hlt := b.lt
  have hlen : (b.len + 2 ^ 64 - 3) % 2 ^ 64 = b.len - 3 := by
    rw [Nat.sub_add_comm hle, Nat.add_mod_right, Nat.mod_eq_of_lt (by omega)]
  have hrun : cleanString src b.len = cleanLoop ⟨[], b.len - 3, false⟩ src := by
    rw [cleanString, hlen]
  obtain ⟨hover, hpart⟩ :=
    @cleanLoop_spec ⟨[], b.len - 3, false⟩ (Nat.lt_of_le_of_lt (Nat.sub_le _ _) hlt) rfl src
  rw [← hrun] at hover hpart
  dsimp only at hover hpart
  constructor
  · rintro ⟨-, hin, -⟩ part c rest hsplit hc hcost
    have hwrapped := hover.mpr ⟨part, c, rest, hsplit, hc, by rw [← hcost]; rfl⟩
    rw [hin] at hwrapped
    cases hwrapped
  · intro hfits
    have hin : (cleanString src b.len).wrapped = false := by
      rw [Bool.eq_false_iff]
      intro hwrapped
      obtain ⟨part, c, rest, hsplit, hc, hcost⟩ := hover.mp hwrapped
      refine hfits part c rest hsplit hc ?_
      rw [← Nat.sub_add_cancel hle, ← hcost]
    obtain ⟨part, hprefix, hout, hcost⟩ := hpart hin
    rw [nil_append] at hout
    refine ⟨?_, hin, part, hprefix, hout⟩
    have hlength := Nat.le_trans (length_flatMap_render_le part) hcost
    rw [hout]
    exact Nat.le_trans (Nat.add_le_add_right hlength 1) (by omega)

/-- A control character for the last place, and more behind it, in a buffer of four bytes. -/
def overrun : List UInt8 := 1 :: List.replicate 10 0x61

/-- Thirteen bytes are written with the NUL. -/
theorem overrun_written : (cleanString overrun 4).out.length + 1 = 13 ∧
    (cleanString overrun 4).wrapped = true ∧ ¬CleanRight overrun ⟨4, by decide, by decide⟩ := by
  have hrun : (cleanString overrun 4).out.length + 1 = 13 ∧
      (cleanString overrun 4).wrapped = true := by decide +kernel
  refine ⟨hrun.1, hrun.2, fun h => ?_⟩
  have hin := h.2.1
  rw [hrun.2] at hin
  cases hin

end CleanString

end Ircd
