import Mathlib.Algebra.BigOperators.Group.List.Basic
import Mathlib.Algebra.Ring.Nat
import Mathlib.Data.List.Basic

/-!
Token buckets: over every stretch of a log in which the bucket is in force, what is
spent is at most the capacity and what was refilled.

`Metered` is the invariant of a bucket whose level says how much of it is used. An
entry of the log may raise the level by what it spends and lower it by what it refills
(`Metered.within`); an entry outside of the bucket may do anything to it, and ends every
stretch (`Metered.outside`).
-/

namespace TokenBucket

variable {ε : Type*}

/-- A bucket: what an entry spends and refills, whether the bucket is in force for it, and
the capacity. -/
structure Bucket (ε : Type*) where
  spends : ε → Nat
  refills : ε → Nat
  inForce : ε → Prop
  cap : Nat

variable {b : Bucket ε}

/-- What the entries of a stretch spend, and what they refill. -/
def Bucket.spent (b : Bucket ε) (seg : List ε) : Nat := (seg.map b.spends).sum

def Bucket.refilled (b : Bucket ε) (seg : List ε) : Nat := (seg.map b.refills).sum

/-- A log that the bucket has kept to, with the level after it. -/
structure Metered (b : Bucket ε) (log : List ε) (level : Nat) : Prop where
  stretch : ∀ seg, seg <:+: log → (∀ e ∈ seg, b.inForce e) → b.spent seg ≤ b.cap + b.refilled seg
  last : ∀ seg, seg <:+ log → (∀ e ∈ seg, b.inForce e) → b.spent seg ≤ level + b.refilled seg

theorem spent_append (b : Bucket ε) (seg : List ε) (e : ε) :
    b.spent (seg ++ [e]) = b.spent seg + b.spends e := by
  simp [Bucket.spent]

theorem refilled_append (b : Bucket ε) (seg : List ε) (e : ε) :
    b.refilled (seg ++ [e]) = b.refilled seg + b.refills e := by
  simp [Bucket.refilled]

theorem Metered.nil (level : Nat) : Metered b [] level where
  stretch := by
    intro seg hseg _
    rw [List.infix_nil.mp hseg]
    exact Nat.zero_le _
  last := by
    intro seg hseg _
    rw [List.suffix_nil.mp hseg]
    exact Nat.zero_le _

theorem Metered.within {log : List ε} {level level' : Nat} {e : ε} (h : Metered b log level)
    (hlevel : level + b.spends e ≤ level' + b.refills e) (hcap : level' ≤ b.cap) :
    Metered b (log ++ [e]) level' := by
  have hlast : ∀ seg, seg <:+ log ++ [e] → (∀ e ∈ seg, b.inForce e) →
      b.spent seg ≤ level' + b.refilled seg := by
    intro seg hseg hforce
    rcases List.suffix_concat_iff.mp hseg with rfl | ⟨seg, rfl, hsuffix⟩
    · exact Nat.zero_le _
    · have hbefore := h.last seg hsuffix fun e he => hforce e (List.mem_append_left _ he)
      rw [spent_append, refilled_append]
      omega
  refine ⟨fun seg hseg hforce => ?_, hlast⟩
  rcases List.infix_concat_iff.mp hseg with hsuffix | hinfix
  · exact Nat.le_trans (hlast seg hsuffix hforce) (Nat.add_le_add_right hcap _)
  · exact h.stretch seg hinfix hforce

theorem Metered.outside {log : List ε} {level level' : Nat} {e : ε} (h : Metered b log level)
    (hout : ¬b.inForce e) : Metered b (log ++ [e]) level' := by
  have hlast : ∀ seg, seg <:+ log ++ [e] → (∀ e ∈ seg, b.inForce e) → seg = [] := by
    intro seg hseg hforce
    rcases List.suffix_concat_iff.mp hseg with rfl | ⟨seg, rfl, -⟩
    · rfl
    · exact absurd (hforce e (by simp)) hout
  constructor
  · intro seg hseg hforce
    rcases List.infix_concat_iff.mp hseg with hsuffix | hinfix
    · rw [hlast seg hsuffix hforce]
      exact Nat.zero_le _
    · exact h.stretch seg hinfix hforce
  · intro seg hseg hforce
    rw [hlast seg hseg hforce]
    exact Nat.zero_le _

end TokenBucket
