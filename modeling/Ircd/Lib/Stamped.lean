import Mathlib.Data.Finset.Lattice.Fold
import Mathlib.Order.Bounds.Basic
import Mathlib.Order.Bounds.OrderIso

/-!
Values under a stamp, merged so that the least stamp wins and the values that
carry it are joined.
-/

namespace Stamped

variable {τ α : Type*} [LinearOrder τ] [SemilatticeSup α]

/-- The older of two stamped values, and their join when they are as old. -/
def merge (x y : τ × α) : τ × α :=
  if y.1 < x.1 then y else if x.1 < y.1 then x else (x.1, x.2 ⊔ y.2)

/-- `r` is what the stamped values `S` merge to: the least stamp, and the least
bound of the values under it. -/
structure IsMerge (S : Set (τ × α)) (r : τ × α) : Prop where
  least : IsLeast (Prod.fst '' S) r.1
  lub : IsLUB {v | (r.1, v) ∈ S} r.2

theorem merge_of_lt {x y : τ × α} (h : y.1 < x.1) : merge x y = y := if_pos h

theorem merge_of_gt {x y : τ × α} (h : x.1 < y.1) : merge x y = x := by
  rw [merge, if_neg (lt_asymm h), if_pos h]

theorem merge_of_eq {x y : τ × α} (h : x.1 = y.1) : merge x y = (x.1, x.2 ⊔ y.2) := by
  rw [merge, if_neg (by rw [h]; exact lt_irrefl _), if_neg (by rw [h]; exact lt_irrefl _)]

theorem isMerge_singleton (x : τ × α) : IsMerge {x} x where
  least := by simp
  lub := by
    have h : {v | (x.1, v) ∈ ({x} : Set (τ × α))} = {x.2} := by
      ext v
      simp [Prod.ext_iff]
    rw [h]
    exact isLUB_singleton

theorem IsMerge.insert {S : Set (τ × α)} {r : τ × α} (h : IsMerge S r) (y : τ × α) :
    IsMerge (insert y S) (merge r y) := by
  obtain ⟨⟨hmem, hlow⟩, hlub⟩ := h
  have hleast : IsLeast (Prod.fst '' (Insert.insert y S)) (min y.1 r.1) := by
    rw [Set.image_insert_eq]
    exact IsLeast.insert y.1 ⟨hmem, hlow⟩
  rcases lt_trichotomy y.1 r.1 with hlt | heq | hgt
  · rw [merge_of_lt hlt]
    refine ⟨by rwa [min_eq_left hlt.le] at hleast, ?_⟩
    -- every stamp of `S` is larger, so `y` stands alone
    have hnot : ∀ v, (y.1, v) ∉ S := fun v hv =>
      absurd (hlow (Set.mem_image_of_mem Prod.fst hv)) (not_le.mpr hlt)
    have hset : {v | (y.1, v) ∈ Insert.insert y S} = {y.2} := by
      ext v
      simp [hnot, Prod.ext_iff]
    rw [hset]
    exact isLUB_singleton
  · rw [merge_of_eq heq.symm]
    refine ⟨by rwa [heq, min_self] at hleast, ?_⟩
    have hset : {v | (r.1, v) ∈ Insert.insert y S} = Insert.insert y.2 {v | (r.1, v) ∈ S} := by
      ext v
      simp [Prod.ext_iff, heq]
    change IsLUB {v | (r.1, v) ∈ Insert.insert y S} (r.2 ⊔ y.2)
    rw [hset, sup_comm]
    exact hlub.insert y.2
  · rw [merge_of_gt hgt]
    refine ⟨by rwa [min_eq_right hgt.le] at hleast, ?_⟩
    have hset : {v | (r.1, v) ∈ Insert.insert y S} = {v | (r.1, v) ∈ S} := by
      ext v
      simp [Prod.ext_iff, hgt.ne]
    rw [hset]
    exact hlub

theorem IsMerge.foldl {S : Set (τ × α)} {r : τ × α} (h : IsMerge S r) (l : List (τ × α)) :
    IsMerge (S ∪ {y | y ∈ l}) (l.foldl merge r) := by
  induction l generalizing S r with
  | nil => simpa using h
  | cons y l ih =>
    have hset : S ∪ {z | z ∈ y :: l} = Insert.insert y S ∪ {z | z ∈ l} := by
      ext z
      simp only [Set.mem_union, Set.mem_ofPred_eq, List.mem_cons, Set.mem_insert_iff]
      tauto
    rw [hset]
    exact ih (h.insert y)

theorem IsMerge.eq_sup [OrderBot α] {S : Finset (τ × α)} {r : τ × α} (h : IsMerge (↑S) r) :
    r.2 = (S.filter fun x => x.1 = r.1).sup Prod.snd := by
  apply h.lub.unique
  constructor
  · intro v hv
    have hmem : (r.1, v) ∈ S.filter fun x => x.1 = r.1 := Finset.mem_filter.mpr ⟨hv, rfl⟩
    exact Finset.le_sup (f := Prod.snd) hmem
  · intro b hb
    apply Finset.sup_le
    intro x hx
    obtain ⟨hmem, hstamp⟩ := Finset.mem_filter.mp hx
    apply hb
    simpa [← hstamp] using hmem

end Stamped
