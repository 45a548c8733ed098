import Mathlib.Data.Finset.Dedup
import Mathlib.Data.Finset.Insert
import Mathlib.Data.List.Nodup

/-!
Lists of jobs that each have a cell of their own in a common state.

- `firstsBy`: the jobs of a list without those that come again under the same key.
- `doAll_acts`: a job that reads and writes no cell but its own does the same behind others as
  it does alone.
- `countP_flatMap_of_mem`: so what is done under its key is done once.
-/

namespace Separate

variable {α κ σ β γ : Type*}

/-! ### The first of each key -/

section Firsts

variable [DecidableEq κ] (key : α → κ)

/-- The entries of a list whose key has not been seen before. -/
def firstsBy : Finset κ → List α → List α
  | _, [] => []
  | seen, x :: l =>
    if key x ∈ seen then firstsBy seen l else x :: firstsBy (insert (key x) seen) l

variable {key} {seen : Finset κ} {l l' : List α} {x : α}

@[simp] theorem firstsBy_nil : firstsBy key seen [] = [] := rfl

theorem firstsBy_cons_of_mem (h : key x ∈ seen) :
    firstsBy key seen (x :: l) = firstsBy key seen l := if_pos h

theorem firstsBy_cons_of_notMem (h : key x ∉ seen) :
    firstsBy key seen (x :: l) = x :: firstsBy key (insert (key x) seen) l := if_neg h

theorem notMem_of_mem_firstsBy (h : x ∈ firstsBy key seen l) : key x ∉ seen := by
  induction l generalizing seen with
  | nil => cases h
  | cons y l ih =>
    by_cases hy : key y ∈ seen
    · exact ih (firstsBy_cons_of_mem hy ▸ h)
    · rw [firstsBy_cons_of_notMem hy] at h
      rcases List.mem_cons.mp h with rfl | h
      · exact hy
      · exact fun hx => ih h (Finset.mem_insert_of_mem hx)

theorem nodup_map_firstsBy (key : α → κ) (seen : Finset κ) (l : List α) :
    ((firstsBy key seen l).map key).Nodup := by
  induction l generalizing seen with
  | nil => exact List.nodup_nil
  | cons y l ih =>
    by_cases hy : key y ∈ seen
    · rw [firstsBy_cons_of_mem hy]
      exact ih seen
    · rw [firstsBy_cons_of_notMem hy, List.map_cons, List.nodup_cons]
      refine ⟨fun hmem => ?_, ih _⟩
      obtain ⟨x, hx, hkey⟩ := List.mem_map.mp hmem
      exact notMem_of_mem_firstsBy hx (hkey ▸ Finset.mem_insert_self _ _)

end Firsts

/-! ### Jobs with cells of their own -/

section Jobs

/-- The jobs one after the other, with what each has done. -/
def doAll (job : α → σ → σ × List β) : List α → σ → σ × List β
  | [], s => (s, [])
  | x :: l, s =>
    ((doAll job l (job x s).1).1, (job x s).2 ++ (doAll job l (job x s).1).2)

/-- A job does the same wherever its cell is the same, and leaves the other cells as they are. -/
structure Apart (job : α → σ → σ × List β) (key : α → κ) (cell : κ → σ → γ) : Prop where
  reads : ∀ x s s', cell (key x) s = cell (key x) s' → (job x s).2 = (job x s').2
  frame : ∀ x k s, k ≠ key x → cell k (job x s).1 = cell k s

theorem doAll_acts {job : α → σ → σ × List β} {key : α → κ} {cell : κ → σ → γ}
    (h : Apart job key cell) {l : List α} (hl : (l.map key).Nodup) (s : σ) :
    (doAll job l s).2 = l.flatMap fun x => (job x s).2 := by
  induction l generalizing s with
  | nil => rfl
  | cons x l ih =>
    rw [List.map_cons, List.nodup_cons] at hl
    obtain ⟨hx, hl⟩ := hl
    have hsame : ∀ y ∈ l, (job y (job x s).1).2 = (job y s).2 := by
      intro y hy
      have hne : key y ≠ key x := fun heq => hx (heq ▸ List.mem_map_of_mem hy)
      exact h.reads y _ _ (h.frame x (key y) s hne)
    have htail := ih hl (job x s).1
    rw [doAll, htail, List.flatMap_cons, List.flatMap_congr hsame]

theorem countP_flatMap_of_notMem {f : α → List β} {key : α → κ} {p : κ → β → Bool} {l : List α}
    (hown : ∀ x, ∀ b ∈ f x, ∀ k, p k b = true → k = key x) {k : κ} (hk : k ∉ l.map key) :
    (l.flatMap f).countP (p k) = 0 := by
  refine List.countP_eq_zero.mpr fun b hb hp => ?_
  obtain ⟨x, hx, hb⟩ := List.mem_flatMap.mp hb
  exact hk (hown x b hb k hp ▸ List.mem_map_of_mem hx)

theorem countP_flatMap_of_mem {f : α → List β} {key : α → κ} {p : κ → β → Bool} {l : List α}
    (hown : ∀ x, ∀ b ∈ f x, ∀ k, p k b = true → k = key x) (hl : (l.map key).Nodup) {x : α}
    (hx : x ∈ l) : (l.flatMap f).countP (p (key x)) = (f x).countP (p (key x)) := by
  induction l with
  | nil => cases hx
  | cons y l ih =>
    rw [List.map_cons, List.nodup_cons] at hl
    rw [List.flatMap_cons, List.countP_append]
    rcases List.mem_cons.mp hx with rfl | hx
    · rw [countP_flatMap_of_notMem hown hl.1, Nat.add_zero]
    · have hy : (f y).countP (p (key x)) = 0 := by
        refine List.countP_eq_zero.mpr fun b hb hp => hl.1 ?_
        exact hown y b hb _ hp ▸ List.mem_map_of_mem hx
      rw [hy, ih hl.2 hx, Nat.zero_add]

end Jobs

end Separate
