import Mathlib.Data.List.Nodup
import Mathlib.Data.List.Range
import Mathlib.Data.Nat.ModEq

/-!
The cells of a ring that is filled over and over, the newest first.

`Ring.order n c` is the order of the cells after `c` writes to a ring of `n` cells,
and `Ring.order_succ` says what one more write does to it: the cell that is written
comes to the front, and it is the oldest one once the ring is full.
-/

namespace Ring

open List

variable {n c i : Nat}

/-- The cells that hold something after `c` writes, the newest first. -/
def order (n c : Nat) : List Nat := (List.range (min c n)).map fun j => (c - 1 - j) % n

theorem length_order (n c : Nat) : (order n c).length = min c n := by
  rw [order, length_map, length_range]

@[simp] theorem order_zero (n : Nat) : order n 0 = [] := by
  rw [order, Nat.zero_min]
  rfl

theorem next_eq (hn : 0 < n) (c : Nat) :
    (if c % n + 1 = n then 0 else c % n + 1) = (c + 1) % n := by
  have hlt := Nat.mod_lt c hn
  rw [← Nat.mod_add_mod c n 1]
  split
  · next hlast => rw [hlast, Nat.mod_self]
  · next hlast => exact (Nat.mod_eq_of_lt (by omega)).symm

theorem mod_ne {a d : Nat} (hd : 0 < d) (hdn : d < n) (hda : d ≤ a) : (a - d) % n ≠ a % n := by
  intro h
  have hdvd : n ∣ a - (a - d) := (Nat.modEq_iff_dvd' (Nat.sub_le a d)).mp h
  rw [Nat.sub_sub_self hda] at hdvd
  exact absurd (Nat.le_of_dvd hd hdvd) (Nat.not_le.mpr hdn)

theorem nodup_order (n c : Nat) : (order n c).Nodup := by
  refine List.Nodup.map_on (fun x hx y hy hxy => ?_) nodup_range
  rw [mem_range] at hx hy
  by_contra hne
  rcases Nat.lt_or_gt_of_ne hne with hlt | hlt
  · have hsub : c - 1 - y = (c - 1 - x) - (y - x) := by omega
    rw [hsub] at hxy
    exact mod_ne (by omega) (by omega) (by omega) hxy.symm
  · have hsub : c - 1 - x = (c - 1 - y) - (x - y) := by omega
    rw [hsub] at hxy
    exact mod_ne (by omega) (by omega) (by omega) hxy

theorem next_notMem_take (n c : Nat) : c % n ∉ (order n c).take (n - 1) := by
  intro hmem
  rw [order, ← map_take, take_range] at hmem
  obtain ⟨j, hj, hmod⟩ := List.mem_map.mp hmem
  rw [mem_range] at hj
  have hsub : c - 1 - j = c - (j + 1) := by omega
  rw [hsub] at hmod
  exact mod_ne (Nat.succ_pos j) (by omega) (by omega) hmod

theorem take_order (hn : 0 < n) (c : Nat) :
    (order n c).take (n - 1) = (order n c).erase (c % n) := by
  rw [(nodup_order n c).erase_eq_filter]
  by_cases hc : c < n
  · have hout : ∀ i ∈ order n c, i < c := by
      intro i hi
      obtain ⟨j, hj, rfl⟩ := List.mem_map.mp hi
      rw [mem_range] at hj
      exact lt_of_le_of_lt (Nat.mod_le _ _) (by omega)
    rw [take_of_length_le (by rw [length_order]; omega), Nat.mod_eq_of_lt hc]
    refine (List.filter_eq_self.mpr fun i hi => ?_).symm
    exact bne_iff_ne.mpr (Nat.ne_of_lt (hout i hi))
  · have hlen : min c n = (n - 1) + 1 := by omega
    have hsplit : order n c = (order n c).take (n - 1) ++ [c % n] := by
      conv_lhs => rw [order, hlen, range_succ, map_append]
      congr 1
      · rw [order, ← map_take, take_range, hlen, Nat.min_eq_left (Nat.le_succ _)]
      · have hlast : c - 1 - (n - 1) = c - n := by omega
        rw [map_singleton, hlast, ← Nat.mod_eq_sub_mod (by omega)]
    have hkeep : ((order n c).take (n - 1)).filter (fun i => i != c % n) =
        (order n c).take (n - 1) := by
      refine List.filter_eq_self.mpr fun i hi => ?_
      exact bne_iff_ne.mpr (ne_of_mem_of_not_mem hi (next_notMem_take n c))
    conv_rhs => rw [hsplit, filter_append]
    rw [hkeep]
    simp

theorem order_succ (hn : 0 < n) (c : Nat) :
    order n (c + 1) = c % n :: (order n c).erase (c % n) := by
  rw [← take_order hn]
  have hlen : min (c + 1) n = min c (n - 1) + 1 := by omega
  rw [order, hlen, range_succ_eq_map, map_cons, map_map, order, ← map_take,
    take_range]
  have hmin : min (n - 1) (min c n) = min c (n - 1) := by omega
  rw [hmin]
  congr 1
  apply map_congr_left
  intro j hj
  change (c + 1 - 1 - (j + 1)) % n = (c - 1 - j) % n
  congr 1
  omega

theorem mem_order (hn : 0 < n) : i ∈ order n c ↔ i < n ∧ i < c := by
  induction c with
  | zero => simp
  | succ c ih =>
    rw [order_succ hn, mem_cons, (nodup_order n c).mem_erase_iff, ih]
    have hlt := Nat.mod_lt c hn
    have hle := Nat.mod_le c n
    by_cases hc : c < n
    · rw [Nat.mod_eq_of_lt hc]
      omega
    · omega

end Ring
