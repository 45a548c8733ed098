import Mathlib.Data.List.Basic

/-!
Loops that pass a state along a list, and what holds of the elements they have come to:
an invariant `I`, a preorder `L` of states that the body follows, and a fact `R` about an
element that its turn brings about and that stays.
-/

namespace Loops

variable {σ ι : Type*} {I : σ → Prop} {L : σ → σ → Prop} {R : ι → σ → Prop}

theorem foldlM_reaches {f : σ → ι → Option σ} {l : List ι} (hrefl : ∀ s, L s s)
    (htrans : ∀ s t u, L s t → L t u → L s u) (hstays : ∀ i s t, L s t → R i s → R i t)
    (hstep : ∀ i ∈ l, ∀ s, I s → ∃ t, f s i = some t ∧ I t ∧ L s t ∧ R i t) {s : σ} (hs : I s) :
    ∃ t, l.foldlM f s = some t ∧ I t ∧ L s t ∧ ∀ i ∈ l, R i t := by
  induction l generalizing s with
  | nil => exact ⟨s, rfl, hs, hrefl s, fun i hi => absurd hi List.not_mem_nil⟩
  | cons i l ih =>
    obtain ⟨t, hf, ht, hst, hi⟩ := hstep i List.mem_cons_self s hs
    obtain ⟨u, hloop, hu, htu, hrest⟩ :=
      ih (fun j hj => hstep j (List.mem_cons_of_mem i hj)) ht
    refine ⟨u, ?_, hu, htrans s t u hst htu, ?_⟩
    · rw [List.foldlM_cons, hf]
      exact hloop
    · intro j hj
      rcases List.mem_cons.mp hj with rfl | hj
      · exact hstays j t u htu hi
      · exact hrest j hj

theorem foldl_reaches {f : σ → ι → σ} {l : List ι} (hrefl : ∀ s, L s s)
    (htrans : ∀ s t u, L s t → L t u → L s u) (hstays : ∀ i s t, L s t → R i s → R i t)
    (hstep : ∀ i ∈ l, ∀ s, I s → I (f s i) ∧ L s (f s i) ∧ R i (f s i)) {s : σ} (hs : I s) :
    I (l.foldl f s) ∧ L s (l.foldl f s) ∧ ∀ i ∈ l, R i (l.foldl f s) := by
  induction l generalizing s with
  | nil => exact ⟨hs, hrefl s, fun i hi => absurd hi List.not_mem_nil⟩
  | cons i l ih =>
    obtain ⟨ht, hst, hi⟩ := hstep i List.mem_cons_self s hs
    obtain ⟨hu, htu, hrest⟩ := ih (fun j hj => hstep j (List.mem_cons_of_mem i hj)) ht
    refine ⟨hu, htrans s (f s i) _ hst htu, ?_⟩
    intro j hj
    rcases List.mem_cons.mp hj with rfl | hj
    · exact hstays j _ _ htu hi
    · exact hrest j hj

end Loops
