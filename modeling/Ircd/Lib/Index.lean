import Mathlib.Data.List.Nodup
import Mathlib.Logic.Function.Basic

/-!
Lists that index a heap: each names, once, the live cells whose content is of one
kind.

A cell is allocated, freed, or given another content, and a list follows by one
entry at most.
-/

namespace Index

variable {ι α : Type*}

/-- `l` names, once each, the cells that hold something of the kind `p`. -/
structure Lists (heap : ι → Option α) (p : α → Prop) (l : List ι) : Prop where
  mem : ∀ {i}, i ∈ l ↔ ∃ c, heap i = some c ∧ p c
  nodup : l.Nodup

variable {heap : ι → Option α} {p : α → Prop} {l : List ι} {i : ι} {c : α}

theorem lists_empty : Lists (fun _ : ι => (none : Option α)) p [] :=
  ⟨by simp, List.nodup_nil⟩

theorem Lists.live (h : Lists heap p l) (hi : i ∈ l) : (heap i).isSome = true := by
  obtain ⟨c, hc, -⟩ := h.mem.mp hi
  rw [hc]
  rfl

theorem Lists.mem_of_some (h : Lists heap p l) (hc : heap i = some c) : i ∈ l ↔ p c := by
  rw [h.mem]
  constructor
  · rintro ⟨d, hd, hp⟩
    obtain rfl := Option.some.inj (hc.symm.trans hd)
    exact hp
  · exact fun hp => ⟨c, hc, hp⟩

theorem Lists.not_mem_of_none (h : Lists heap p l) (hi : heap i = none) : i ∉ l := by
  intro hmem
  obtain ⟨c, hc, -⟩ := h.mem.mp hmem
  simp [hi] at hc

variable [DecidableEq ι]

theorem Lists.cons (h : Lists heap p l) (hi : i ∉ l) (hp : p c) :
    Lists (Function.update heap i (some c)) p (i :: l) where
  mem {j} := by
    by_cases hj : j = i
    · subst hj
      simpa using hp
    · simp [hj, h.mem]
  nodup := List.nodup_cons.mpr ⟨hi, h.nodup⟩

theorem Lists.skip (h : Lists heap p l) (hi : i ∉ l) (hp : ¬p c) :
    Lists (Function.update heap i (some c)) p l where
  mem {j} := by
    by_cases hj : j = i
    · subst hj
      simpa [hi] using hp
    · simp [hj, h.mem]
  nodup := h.nodup

theorem Lists.erase (h : Lists heap p l) (i : ι) :
    Lists (Function.update heap i none) p (l.erase i) where
  mem {j} := by
    rw [h.nodup.mem_erase_iff, h.mem]
    by_cases hj : j = i
    · subst hj
      simp
    · simp [hj]
  nodup := h.nodup.erase i

end Index
