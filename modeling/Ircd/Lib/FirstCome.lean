import Mathlib.Data.Finset.Card
import Mathlib.Data.Finset.Dedup
import Mathlib.Data.Finset.Insert
import Mathlib.Data.Finset.Lattice.Basic

/-!
First come, first served: those in a list are let in one after the other while there is room.

Who comes twice takes one place. `mem_served` says who is let in: who stands in the list with
less than `room` others in front.
-/

namespace FirstCome

variable {α : Type*} [DecidableEq α] {room : Nat} {l : List α} {a b : α} {inside : Finset α}

/-- The next one is let in while there is room. -/
def serve (room : Nat) (inside : Finset α) (a : α) : Finset α :=
  if inside.card < room then insert a inside else inside

/-- Those of a list who are let in. -/
def served (room : Nat) (l : List α) : Finset α := l.foldl (serve room) ∅

/-- The different ones of a list in front of this one. -/
def before (l : List α) (a : α) : Finset α := (l.takeWhile fun b => decide (b ≠ a)).toFinset

theorem served_append (l : List α) (a : α) : served room (l ++ [a]) = serve room (served room l)
    a := by
  rw [served, List.foldl_append]
  rfl

theorem mem_serve_iff : b ∈ serve room inside a ↔ b ∈ inside ∨ b = a ∧ inside.card < room := by
  unfold serve
  split
  · rename_i hroom
    rw [Finset.mem_insert, or_comm]
    exact or_congr_right (and_iff_left hroom).symm
  · rename_i hroom
    exact (or_iff_left fun h => hroom h.2).symm

theorem serve_of_mem (ha : a ∈ inside) : serve room inside a = inside := by
  unfold serve
  split
  · exact Finset.insert_eq_self.mpr ha
  · rfl

theorem card_serve (ha : a ∉ inside) :
    (serve room inside a).card = if inside.card < room then inside.card + 1 else inside.card := by
  unfold serve
  split
  · exact Finset.card_insert_of_notMem ha
  · rfl

theorem toFinset_concat (l : List α) (a : α) : (l ++ [a]).toFinset = insert a l.toFinset := by
  ext b
  rw [List.mem_toFinset, List.mem_append, List.mem_singleton, Finset.mem_insert, List.mem_toFinset,
    or_comm]

theorem served_subset_and_card (room : Nat) (l : List α) :
    served room l ⊆ l.toFinset ∧ (served room l).card = min room l.toFinset.card := by
  induction l using List.reverseRecOn with
  | nil => exact ⟨Finset.Subset.refl _, (Nat.min_zero room).symm⟩
  | append_singleton l a ih =>
    obtain ⟨hsub, hcard⟩ := ih
    rw [served_append]
    constructor
    · intro b hb
      rcases mem_serve_iff.mp hb with hb | ⟨rfl, -⟩
      · have hl := List.mem_toFinset.mp (hsub hb)
        exact List.mem_toFinset.mpr (List.mem_append_left _ hl)
      · exact List.mem_toFinset.mpr (List.mem_append_right _ (List.mem_singleton_self _))
    · rw [toFinset_concat]
      by_cases hl : a ∈ l
      · rw [Finset.insert_eq_self.mpr (List.mem_toFinset.mpr hl), ← hcard]
        by_cases ha : a ∈ served room l
        · rw [serve_of_mem ha]
        · have hlt : (served room l).card < l.toFinset.card :=
            Finset.card_lt_card ⟨hsub, fun h => ha (h (List.mem_toFinset.mpr hl))⟩
          rw [card_serve ha, if_neg (by omega)]
      · have ha : a ∉ served room l := fun h => hl (List.mem_toFinset.mp (hsub h))
        rw [card_serve ha, Finset.card_insert_of_notMem (fun h => hl (List.mem_toFinset.mp h)),
          hcard]
        split
        · omega
        · omega

theorem before_concat_of_mem (hb : b ∈ l) : before (l ++ [a]) b = before l b := by
  induction l with
  | nil => exact absurd hb List.not_mem_nil
  | cons c l ih =>
    by_cases hc : c = b
    · simp [before, hc]
    · have hb' : b ∈ l := (List.mem_cons.mp hb).resolve_left fun h => hc h.symm
      have hrest := ih hb'
      simp only [before, List.cons_append] at hrest ⊢
      rw [List.takeWhile_cons_of_pos (by simpa using hc),
        List.takeWhile_cons_of_pos (by simpa using hc),
        List.toFinset_cons, List.toFinset_cons, hrest]

theorem before_concat_self (ha : a ∉ l) : before (l ++ [a]) a = l.toFinset := by
  have hall : ∀ b ∈ l, decide (b ≠ a) = true := by
    intro b hb
    rw [decide_eq_true_eq]
    rintro rfl
    exact ha hb
  rw [before, List.takeWhile_append_of_pos hall]
  simp

theorem mem_served : b ∈ served room l ↔ b ∈ l ∧ (before l b).card < room := by
  induction l using List.reverseRecOn with
  | nil => simp [served]
  | append_singleton l a ih =>
    obtain ⟨hsub, hcard⟩ := served_subset_and_card room l
    rw [served_append, mem_serve_iff]
    by_cases hb : b ∈ l
    · rw [before_concat_of_mem hb, ih]
      constructor
      · rintro (⟨-, hroom⟩ | ⟨rfl, hroom⟩)
        · exact ⟨List.mem_append_left _ hb, hroom⟩
        · -- there is room after all of the list
          have hall : served room l = l.toFinset := Finset.eq_of_subset_of_card_le hsub (by omega)
          have hin : b ∈ served room l := hall ▸ List.mem_toFinset.mpr hb
          exact ⟨List.mem_append_left _ hb, (ih.mp hin).2⟩
      · exact fun h => Or.inl ⟨hb, h.2⟩
    · have hnot : b ∉ served room l := fun h => hb (List.mem_toFinset.mp (hsub h))
      rw [or_iff_right hnot, List.mem_append, or_iff_right hb, List.mem_singleton]
      constructor
      · rintro ⟨rfl, hroom⟩
        rw [before_concat_self hb]
        exact ⟨rfl, by omega⟩
      · rintro ⟨rfl, hroom⟩
        rw [before_concat_self hb] at hroom
        exact ⟨rfl, by omega⟩

end FirstCome
