import Ircd.Lib.Buckets

/-!
A relation kept twice: the ones on the left list those they are related to on the right,
and the ones on the right list those on the left.

`Mirror f g` says that the two sides list the same pairs, each once. A pair is entered
on both sides (`Mirror.link`) and struck from both (`Mirror.unlink`).
-/

open Buckets (add del)

/-- Both sides list the same pairs, each once. -/
structure Mirror {α β : Type*} (f : α → List β) (g : β → List α) : Prop where
  mem : ∀ {a b}, b ∈ f a ↔ a ∈ g b
  nodup : ∀ a, (f a).Nodup
  nodup' : ∀ b, (g b).Nodup

namespace Mirror

variable {α β : Type*} {f : α → List β} {g : β → List α} {a : α} {b : β}

theorem empty : Mirror (fun _ : α => ([] : List β)) fun _ => [] :=
  ⟨by simp, fun _ => List.nodup_nil, fun _ => List.nodup_nil⟩

variable [DecidableEq α] [DecidableEq β]

omit [DecidableEq β] in
theorem mem_add {x : β} {y : α} : x ∈ add f a b y ↔ x ∈ f y ∨ (y = a ∧ x = b) := by
  by_cases hy : y = a
  · subst hy
    simp [add, or_comm]
  · simp [add, hy]

theorem mem_del (h : ∀ a, (f a).Nodup) {x : β} {y : α} :
    x ∈ del f a b y ↔ x ∈ f y ∧ ¬(y = a ∧ x = b) := by
  by_cases hy : y = a
  · subst hy
    simp [del, (h y).mem_erase_iff, and_comm]
  · simp [del, hy]

theorem link (h : Mirror f g) (hab : b ∉ f a) : Mirror (add f a b) (add g b a) where
  mem {x y} := by
    rw [mem_add, mem_add, h.mem, and_comm]
  nodup x := by
    by_cases hx : x = a
    · subst hx
      simpa [add] using ⟨hab, h.nodup x⟩
    · simpa [add, hx] using h.nodup x
  nodup' y := by
    by_cases hy : y = b
    · subst hy
      simpa [add] using ⟨fun ha => hab (h.mem.mpr ha), h.nodup' y⟩
    · simpa [add, hy] using h.nodup' y

theorem unlink (h : Mirror f g) (a : α) (b : β) : Mirror (del f a b) (del g b a) where
  mem {x y} := by
    rw [mem_del h.nodup, mem_del h.nodup', h.mem, and_comm (a := x = a)]
  nodup x := by
    by_cases hx : x = a
    · subst hx
      simpa [del] using (h.nodup x).erase b
    · simpa [del, hx] using h.nodup x
  nodup' y := by
    by_cases hy : y = b
    · subst hy
      simpa [del] using (h.nodup' y).erase a
    · simpa [del, hy] using h.nodup' y

theorem del_eq (h : b ∉ f a) : del f a b = f := by
  rw [del, List.erase_of_not_mem h, Function.update_eq_self]

theorem del_eq_filter (h : (f a).Nodup) :
    Function.update f a ((f a).filter (· ≠ b)) = del f a b := by
  rw [del, h.erase_eq_filter]
  congr 2
  funext x
  exact decide_not

end Mirror
