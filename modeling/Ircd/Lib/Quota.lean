import Mathlib.Data.Finset.Dedup
import Mathlib.Data.Finset.Lattice.Lemmas
import Mathlib.Data.List.Nodup

/-!
Going over a list with a quota of hits, and the first occurrences in a list.

A countdown stops the scan when it comes to zero, and one that is zero already never does:
`filter_upTo` says which hits are found, `upTo_of_room` and `upTo_at` how far the scan goes.
-/

namespace Quota

open List

variable {α : Type*}

/-- What a scan goes over which stops at the hit that uses up its quota. A quota of zero is
never used up. -/
def upTo (hit : α → Bool) : Nat → List α → List α
  | _, [] => []
  | n, x :: l =>
    if hit x then if n = 1 then [x] else x :: upTo hit (n - 1) l
    else x :: upTo hit n l

/-- The first occurrences of those that have not been seen before. -/
def firsts [DecidableEq α] : Finset α → List α → List α
  | _, [] => []
  | seen, x :: l => if x ∈ seen then firsts seen l else x :: firsts (insert x seen) l

/-! ### The scan -/

section

variable {hit hit' : α → Bool} {n : Nat} {l before after : List α} {x : α}

theorem upTo_of_room (h : n = 0 ∨ (l.filter hit).length < n) : upTo hit n l = l := by
  induction l generalizing n with
  | nil => rfl
  | cons x l ih =>
    unfold upTo
    split
    · rename_i hx
      rw [filter_cons_of_pos hx, length_cons] at h
      rw [if_neg (by omega), ih (by omega)]
    · rename_i hx
      rw [filter_cons_of_neg hx] at h
      rw [ih h]

theorem upTo_at (hx : hit x = true) (hn : (before.filter hit).length + 1 = n) :
    upTo hit n (before ++ x :: after) = before ++ [x] := by
  induction before generalizing n with
  | nil =>
    obtain rfl : n = 1 := hn.symm
    rw [nil_append, upTo, if_pos hx, if_pos rfl]
    rfl
  | cons y before ih =>
    rw [cons_append, upTo]
    split
    · rename_i hy
      rw [filter_cons_of_pos hy, length_cons] at hn
      rw [if_neg (by omega), ih (by omega)]
      rfl
    · rename_i hy
      rw [filter_cons_of_neg hy] at hn
      rw [ih hn]
      rfl

theorem exists_at (hpos : 0 < n) (hn : n ≤ (l.filter hit).length) :
    ∃ before x after, l = before ++ x :: after ∧ hit x = true ∧
      (before.filter hit).length + 1 = n := by
  induction l generalizing n with
  | nil =>
    rw [filter_nil, length_nil] at hn
    omega
  | cons y l ih =>
    by_cases hy : hit y = true
    · rw [filter_cons_of_pos hy, length_cons] at hn
      by_cases hone : n = 1
      · exact ⟨[], y, l, rfl, hy, hone.symm⟩
      · obtain ⟨before, x, after, hl, hx, hcount⟩ := @ih (n - 1) (by omega) (by omega)
        refine ⟨y :: before, x, after, by rw [hl]; rfl, hx, ?_⟩
        rw [filter_cons_of_pos hy, length_cons]
        omega
    · rw [filter_cons_of_neg hy] at hn
      obtain ⟨before, x, after, hl, hx, hcount⟩ := ih hpos hn
      refine ⟨y :: before, x, after, by rw [hl]; rfl, hx, ?_⟩
      rwa [filter_cons_of_neg hy]

theorem filter_upTo (hit : α → Bool) (n : Nat) (l : List α) : (upTo hit n l).filter hit =
    if n = 0 then l.filter hit else (l.filter hit).take n := by
  by_cases hroom : n = 0 ∨ (l.filter hit).length < n
  · rw [upTo_of_room hroom]
    split
    · rfl
    · exact (take_of_length_le (by omega)).symm
  · have hpos : 0 < n := by omega
    have hmany : n ≤ (l.filter hit).length := by omega
    obtain ⟨before, x, after, rfl, hx, hn⟩ := exists_at hpos hmany
    rw [upTo_at hx hn, if_neg (by omega), filter_append, filter_append,
      filter_cons_of_pos hx, filter_cons_of_pos hx, take_append,
      take_of_length_le (by omega)]
    simp [← hn]

theorem upTo_sublist (hit : α → Bool) (n : Nat) (l : List α) : (upTo hit n l).Sublist l := by
  by_cases hroom : n = 0 ∨ (l.filter hit).length < n
  · rw [upTo_of_room hroom]
  · have hpos : 0 < n := by omega
    have hmany : n ≤ (l.filter hit).length := by omega
    obtain ⟨before, x, after, rfl, hx, hn⟩ := exists_at hpos hmany
    rw [upTo_at hx hn]
    exact (List.Sublist.refl _).append (List.cons_sublist_cons.mpr (nil_sublist _))

theorem forall_split_cons {P : List α → α → Prop} {y : α} :
    (∀ before x after, y :: l = before ++ x :: after → P before x) ↔
      P [] y ∧ ∀ before x after, l = before ++ x :: after → P (y :: before) x := by
  constructor
  · intro h
    exact ⟨h [] y l rfl, fun before x after hl => h (y :: before) x after (by rw [hl]; rfl)⟩
  · rintro ⟨hnil, hcons⟩ before x after hl
    cases before with
    | nil =>
      obtain ⟨rfl, -⟩ := List.cons.inj hl
      exact hnil
    | cons z before =>
      obtain ⟨rfl, htail⟩ := List.cons.inj hl
      exact hcons before x after htail

theorem filter_upTo_eq_iff (hl : l.Nodup) :
    (upTo hit n l).filter hit = (upTo hit' n l).filter hit' ↔
      ∀ before x after, l = before ++ x :: after →
        (n = 0 ∨ (before.filter hit).length < n) → hit x = hit' x := by
  induction l generalizing n with
  | nil => exact iff_of_true rfl fun before x after h => by simp at h
  | cons y l ih =>
    obtain ⟨hy, hl⟩ := List.nodup_cons.mp hl
    rw [forall_split_cons (P := fun before x =>
      (n = 0 ∨ (before.filter hit).length < n) → hit x = hit' x)]
    have hfirst : n = 0 ∨ (([] : List α).filter hit).length < n := n.eq_zero_or_pos
    have hout : ∀ (h : α → Bool) m, y ∉ (upTo h m l).filter h := fun h m hmem =>
      hy ((upTo_sublist h m l).subset (mem_of_mem_filter hmem))
    cases hhit : hit y with
    | false =>
      cases hhit' : hit' y with
      | false =>
        have hskip : ∀ before : List α, (y :: before).filter hit = before.filter hit :=
          fun before => filter_cons_of_neg (by simp [hhit])
        simp only [upTo, hhit, hhit', Bool.false_eq_true, if_false, filter_cons_of_neg,
          not_false_eq_true, hskip, ih hl]
        exact (and_iff_right fun _ => trivial).symm
      | true =>
        refine iff_of_false (fun heq => ?_) fun h => by simpa using h.1 hfirst
        refine hout hit n ?_
        rw [upTo, if_neg (by simp [hhit]), filter_cons_of_neg (by simp [hhit])] at heq
        rw [heq, upTo, if_pos hhit']
        split <;> simp [hhit']
    | true =>
      cases hhit' : hit' y with
      | false =>
        refine iff_of_false (fun heq => ?_) fun h => by simpa using h.1 hfirst
        refine hout hit' n ?_
        rw [upTo.eq_2 hit', if_neg (by simp [hhit']),
          filter_cons_of_neg (by simp [hhit'])] at heq
        rw [← heq, upTo, if_pos hhit]
        split <;> simp [hhit]
      | true =>
        have hcount : ∀ before : List α, ((y :: before).filter hit).length =
            (before.filter hit).length + 1 := fun before => by
          rw [filter_cons_of_pos hhit, length_cons]
        rw [upTo, upTo, if_pos hhit, if_pos hhit']
        by_cases hone : n = 1
        · rw [if_pos hone, if_pos hone]
          refine iff_of_true (by simp [hhit, hhit']) ⟨fun _ => rfl, ?_⟩
          intro before x after _ hroom
          rw [hcount] at hroom
          omega
        · rw [if_neg hone, if_neg hone, filter_cons_of_pos hhit,
            filter_cons_of_pos hhit', cons_inj_right, ih hl]
          refine Iff.trans ?_ (and_iff_right fun _ => rfl).symm
          refine forall₄_congr fun before x after _ => imp_congr_left ?_
          rw [hcount]
          omega

end

/-! ### First occurrences -/

section

variable [DecidableEq α] {seen : Finset α} {l l' : List α} {x : α}

theorem mem_firsts : x ∈ firsts seen l ↔ x ∈ l ∧ x ∉ seen := by
  induction l generalizing seen with
  | nil => simp [firsts]
  | cons y l ih =>
    unfold firsts
    by_cases hy : y ∈ seen
    · rw [if_pos hy, ih, mem_cons]
      refine and_congr_left fun hx => (or_iff_right ?_).symm
      rintro rfl
      exact hx hy
    · rw [if_neg hy, mem_cons, ih, mem_cons, Finset.mem_insert, not_or]
      by_cases hxy : x = y
      · subst hxy
        simp [hy]
      · simp [hxy]

theorem nodup_firsts (seen : Finset α) (l : List α) : (firsts seen l).Nodup := by
  induction l generalizing seen with
  | nil => exact nodup_nil
  | cons y l ih =>
    unfold firsts
    split
    · exact ih seen
    · refine List.nodup_cons.mpr ⟨fun hmem => ?_, ih _⟩
      exact (mem_firsts.mp hmem).2 (Finset.mem_insert_self y seen)

theorem firsts_append (seen : Finset α) (l l' : List α) :
    firsts seen (l ++ l') = firsts seen l ++ firsts (seen ∪ l.toFinset) l' := by
  induction l generalizing seen with
  | nil => simp [firsts]
  | cons y l ih =>
    rw [cons_append, firsts, firsts, toFinset_cons]
    split
    · rename_i hy
      rw [ih, Finset.union_insert, Finset.insert_eq_of_mem (Finset.mem_union_left _ hy)]
    · rw [ih, Finset.insert_union, Finset.union_insert, cons_append]

theorem union_firsts (seen : Finset α) (l : List α) :
    seen ∪ (firsts seen l).toFinset = seen ∪ l.toFinset := by
  ext x
  rw [Finset.mem_union, Finset.mem_union, mem_toFinset, mem_toFinset, mem_firsts]
  tauto

end

theorem exists_crossing {β : Type*} (count : List β → Nat) {n : Nat} {l : List β}
    (hstart : count [] < n) (hend : n ≤ count l) :
    ∃ before x after, l = before ++ x :: after ∧ count before < n ∧ n ≤ count (before ++ [x]) := by
  induction l using List.reverseRecOn with
  | nil => omega
  | append_singleton l x ih =>
    by_cases hl : n ≤ count l
    · obtain ⟨before, y, after, rfl, hlt, hle⟩ := ih hl
      exact ⟨before, y, after ++ [x], by simp, hlt, hle⟩
    · exact ⟨l, x, [], rfl, by omega, hend⟩

end Quota
