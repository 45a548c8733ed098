import Mathlib.Data.List.TakeWhile
import Mathlib.Tactic.Common

/-!
C strings in a buffer: reading the text at a place, and writing a text over what
stands there, as `sprintf` does.

What is read behind a write is what was there, and what is read within it is the
rest of the text that was written (`strAt_putStr`).
-/

namespace CBuffer

/-- A text ends at its first NUL. -/
def cstr (t : List Char) : List Char := t.takeWhile (· ≠ '\x00')

def strAt (b : List Char) (p : Nat) : List Char := cstr (b.drop p)

/-- Characters are written over those from a place on. -/
def poke (b : List Char) (p : Nat) (t : List Char) : List Char :=
  b.take p ++ (t ++ b.drop (p + t.length))

def putStr (b : List Char) (p : Nat) (t : List Char) : List Char := poke b p (cstr t ++ ['\x00'])

variable {b t : List Char} {p q : Nat}

theorem ne_nul_of_mem_cstr {c : Char} (h : c ∈ cstr t) : c ≠ '\x00' := by
  simpa using List.mem_takeWhile_imp h

theorem cstr_of_notMem (h : '\x00' ∉ t) : cstr t = t := by
  refine List.takeWhile_eq_self_iff.mpr fun c hc => ?_
  have hne : c ≠ '\x00' := fun heq => h (heq ▸ hc)
  simpa using hne

theorem length_cstr_le : (cstr t).length ≤ t.length := (List.takeWhile_prefix _).length_le

theorem cstr_drop_cstr (n : Nat) (t rest : List Char) (hn : n ≤ (cstr t).length) :
    cstr ((cstr t ++ '\x00' :: rest).drop n) = (cstr t).drop n := by
  have hnul : ∀ c ∈ (cstr t).drop n, c ≠ '\x00' := by
    intro c hc
    exact ne_nul_of_mem_cstr (List.mem_of_mem_drop hc)
  rw [List.drop_append_of_le_length hn, cstr, List.takeWhile_append_of_pos]
  · simp
  · intro c hc
    simpa using hnul c hc

theorem length_le_poke (hp : p ≤ b.length) : b.length ≤ (poke b p t).length := by
  simp only [poke, List.length_append, List.length_take, List.length_drop]
  omega

theorem length_le_putStr (hp : p ≤ b.length) : b.length ≤ (putStr b p t).length :=
  length_le_poke hp

theorem add_length_strAt_le (hp : p ≤ b.length) : p + (strAt b p).length ≤ b.length := by
  have hle := length_cstr_le (t := b.drop p)
  rw [List.length_drop] at hle
  simp only [strAt]
  omega

theorem strAt_add {n : Nat} (hn : n ≤ (strAt b p).length) :
    strAt b (p + n) = (strAt b p).drop n := by
  have hrest : ∀ (l : List Char) (n : Nat), n ≤ (cstr l).length →
      cstr (l.drop n) = (cstr l).drop n := by
    intro l n hn
    induction n generalizing l with
    | zero => rfl
    | succ n ih =>
      cases l with
      | nil => rfl
      | cons c l =>
        by_cases hc : c = '\x00'
        · simp [cstr, hc] at hn
        · have hcons : cstr (c :: l) = c :: cstr l := by simp [cstr, hc]
          rw [hcons, List.length_cons] at hn
          rw [hcons, List.drop_succ_cons, List.drop_succ_cons, ih l (by omega)]
  rw [strAt, strAt, ← List.drop_drop, hrest _ _ hn]

theorem strAt_poke_behind (hp : p ≤ b.length) (hq : p + t.length ≤ q) :
    strAt (poke b p t) q = strAt b q := by
  have htake : (b.take p).length = p := by simp [hp]
  have hdrop : (poke b p t).drop q = b.drop q := by
    obtain ⟨n, rfl⟩ : ∃ n, q = p + (t.length + n) := ⟨q - (p + t.length), by omega⟩
    have hfront : p + (t.length + n) = (b.take p).length + (t.length + n) := by rw [htake]
    rw [poke, hfront, List.drop_length_add_append, List.drop_length_add_append, List.drop_drop,
      htake]
    congr 1
    omega
  rw [strAt, strAt, hdrop]

theorem strAt_putStr_behind (hp : p ≤ b.length) (hq : p + (cstr t).length < q) :
    strAt (putStr b p t) q = strAt b q := by
  apply strAt_poke_behind hp
  rw [List.length_append, List.length_singleton]
  omega

theorem strAt_putStr_within (hp : p ≤ b.length) (hpq : p ≤ q) (hq : q ≤ p + (cstr t).length) :
    strAt (putStr b p t) q = (cstr t).drop (q - p) := by
  have htake : (b.take p).length = p := by simp [hp]
  obtain ⟨n, rfl⟩ : ∃ n, q = p + n := ⟨q - p, by omega⟩
  have hdrop : (putStr b p t).drop (p + n) =
      (cstr t ++ '\x00' :: b.drop (p + (cstr t ++ ['\x00']).length)).drop n := by
    have hfront : p + n = (b.take p).length + n := by rw [htake]
    rw [putStr, poke, hfront, List.drop_length_add_append]
    simp
  rw [strAt, hdrop, cstr_drop_cstr n t _ (by omega), Nat.add_sub_cancel_left]

theorem strAt_putStr (hp : p ≤ b.length) (hpq : p ≤ q) :
    strAt (putStr b p t) q =
      if p + (cstr t).length < q then strAt b q else (cstr t).drop (q - p) := by
  split
  · exact strAt_putStr_behind hp ‹_›
  · exact strAt_putStr_within hp hpq (by omega)

end CBuffer
