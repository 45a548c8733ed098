import Mathlib.Data.List.Basic

/-!
A scan that keeps the entry with the greatest key.

The scan starts below every positive key, so an entry with key zero is never
taken. `isBest_scan` says what the scan has found after any number of lists.
-/

namespace Best

variable {α : Type*} {key : α → Nat} {ok : α → Bool}

/-- Go over a list and keep an acceptable entry whenever its key is greater. -/
def scan (key : α → Nat) (ok : α → Bool) (best : Nat × Option α) (l : List α) :
    Nat × Option α :=
  l.foldl (fun best a => if ok a && decide (best.1 < key a) then (key a, some a) else best) best

/-- `best` is what a scan keeps of the entries in `S`: nothing while all keys are
zero, else an entry of the greatest key. -/
def IsBest (key : α → Nat) (S : α → Prop) : Nat × Option α → Prop
  | (k, none) => k = 0 ∧ ∀ a, S a → key a = 0
  | (k, some a) => S a ∧ key a = k ∧ 0 < k ∧ ∀ b, S b → key b ≤ k

theorem isBest_start (key : α → Nat) : IsBest key (fun _ => False) (0, none) :=
  ⟨rfl, fun _ h => h.elim⟩

theorem IsBest.le {S : α → Prop} {best : Nat × Option α} (h : IsBest key S best) {a : α}
    (ha : S a) : key a ≤ best.1 := by
  rcases best with ⟨k, _ | b⟩
  · rw [h.2 a ha]
    exact Nat.zero_le _
  · exact h.2.2.2 a ha

theorem IsBest.congr {S T : α → Prop} {best : Nat × Option α} (h : IsBest key S best)
    (hST : ∀ a, S a ↔ T a) : IsBest key T best := by
  rwa [show T = S from funext fun a => propext (hST a).symm]

theorem IsBest.insert {S : α → Prop} {best : Nat × Option α} (h : IsBest key S best) (a : α) :
    IsBest key (fun b => S b ∨ b = a)
      (if best.1 < key a then (key a, some a) else best) := by
  split
  · rename_i hlt
    refine ⟨.inr rfl, rfl, Nat.zero_lt_of_lt hlt, ?_⟩
    rintro b (hb | rfl)
    · exact Nat.le_trans (h.le hb) (Nat.le_of_lt hlt)
    · exact Nat.le_refl _
  · rename_i hle
    rcases best with ⟨k, _ | c⟩
    · obtain ⟨rfl, h0⟩ := h
      refine ⟨rfl, ?_⟩
      rintro b (hb | rfl)
      · exact h0 b hb
      · exact Nat.eq_zero_of_not_pos hle
    · obtain ⟨hc, hk, hpos, hall⟩ := h
      refine ⟨.inl hc, hk, hpos, ?_⟩
      rintro b (hb | rfl)
      · exact hall b hb
      · exact Nat.le_of_not_lt hle

theorem isBest_scan {S : α → Prop} {best : Nat × Option α} (h : IsBest key S best)
    (l : List α) : IsBest key (fun a => S a ∨ a ∈ l ∧ ok a = true) (scan key ok best l) := by
  induction l generalizing S best with
  | nil => exact h.congr fun a => by simp
  | cons b l ih =>
    cases hb : ok b with
    | true =>
      have hscan : scan key ok best (b :: l) =
          scan key ok (if best.1 < key b then (key b, some b) else best) l := by
        simp [scan, hb]
      rw [hscan]
      refine (ih (h.insert b)).congr fun a => ?_
      simp only [List.mem_cons]
      constructor
      · rintro ((ha | rfl) | ⟨ha, hok⟩)
        · exact .inl ha
        · exact .inr ⟨.inl rfl, hb⟩
        · exact .inr ⟨.inr ha, hok⟩
      · rintro (ha | ⟨rfl | ha, hok⟩)
        · exact .inl (.inl ha)
        · exact .inl (.inr rfl)
        · exact .inr ⟨ha, hok⟩
    | false =>
      have hscan : scan key ok best (b :: l) = scan key ok best l := by
        simp [scan, hb]
      rw [hscan]
      refine (ih h).congr fun a => ?_
      simp only [List.mem_cons]
      constructor
      · rintro (ha | ⟨ha, hok⟩)
        · exact .inl ha
        · exact .inr ⟨.inr ha, hok⟩
      · rintro (ha | ⟨rfl | ha, hok⟩)
        · exact .inl ha
        · simp [hb] at hok
        · exact .inr ⟨ha, hok⟩

theorem isBest_foldl_scan {S : α → Prop} {best : Nat × Option α} (h : IsBest key S best)
    (ls : List (List α)) :
    IsBest key (fun a => S a ∨ (∃ l ∈ ls, a ∈ l) ∧ ok a = true)
      (ls.foldl (scan key ok) best) := by
  induction ls generalizing S best with
  | nil => exact h.congr fun a => by simp
  | cons l ls ih =>
    have hscan : IsBest key _ (scan key ok best l) := isBest_scan h l
    refine (ih hscan).congr fun a => ?_
    simp only [List.mem_cons, or_and_right, exists_or, exists_eq_left, or_assoc]

end Best
