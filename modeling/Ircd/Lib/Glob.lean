import Mathlib.Data.List.Basic
import Mathlib.Data.List.Infix

/-!
Wildcard patterns over an arbitrary alphabet.

A pattern is a list of tokens. A token is either a star, which stands for any
string, or a test, which stands for one symbol it accepts. `Denotes` is the
language of a pattern. The results are the ones a matcher needs:

* a pattern denotes a split of the string along any split of the pattern
  (`denotes_append_iff`);
* a run of stars is one star (`denotes_star_star_iff`);
* a matcher that has matched the test-only part between two stars at its
  leftmost place never has to return to the first star (`denotes_restart_iff`).
-/

namespace Glob

/-- The tokens of a pattern: which of them are stars, and which symbols the
others accept. -/
structure Alphabet (κ α : Type*) where
  isStar : κ → Bool
  accept : κ → α → Bool

variable {κ α : Type*}

/-- `A.Denotes p s`: the string `s` is in the language of the pattern `p`. -/
inductive Alphabet.Denotes (A : Alphabet κ α) : List κ → List α → Prop where
  | nil : Denotes A [] []
  | star {k : κ} {p : List κ} (u : List α) {v : List α} :
      A.isStar k = true → Denotes A p v → Denotes A (k :: p) (u ++ v)
  | one {k : κ} {p : List κ} {a : α} {s : List α} :
      A.isStar k = false → A.accept k a = true → Denotes A p s → Denotes A (k :: p) (a :: s)

def Alphabet.Plain (A : Alphabet κ α) (p : List κ) : Prop :=
  ∀ k ∈ p, A.isStar k = false

variable {A : Alphabet κ α} {k k' : κ} {p q : List κ} {s : List α}

@[simp] theorem denotes_nil_iff : A.Denotes [] s ↔ s = [] := by
  constructor
  · intro h
    cases h
    rfl
  · rintro rfl
    exact .nil

theorem denotes_star_iff (hk : A.isStar k = true) :
    A.Denotes (k :: p) s ↔ ∃ u v, s = u ++ v ∧ A.Denotes p v := by
  constructor
  · intro h
    cases h with
    | star u _ hv => exact ⟨u, _, rfl, hv⟩
    | one hk' _ _ => simp [hk] at hk'
  · rintro ⟨u, v, rfl, hv⟩
    exact .star u hk hv

theorem denotes_one_iff (hk : A.isStar k = false) :
    A.Denotes (k :: p) s ↔ ∃ a t, s = a :: t ∧ A.accept k a = true ∧ A.Denotes p t := by
  constructor
  · intro h
    cases h with
    | star u hk' _ => simp [hk] at hk'
    | one _ ha ht => exact ⟨_, _, rfl, ha, ht⟩
  · rintro ⟨a, t, rfl, ha, ht⟩
    exact .one hk ha ht

theorem denotes_one_cons_iff (hk : A.isStar k = false) {a : α} :
    A.Denotes (k :: p) (a :: s) ↔ A.accept k a = true ∧ A.Denotes p s := by
  rw [denotes_one_iff hk]
  constructor
  · rintro ⟨b, t, h, ha, ht⟩
    obtain ⟨rfl, rfl⟩ := List.cons.inj h
    exact ⟨ha, ht⟩
  · rintro ⟨ha, ht⟩
    exact ⟨a, s, rfl, ha, ht⟩

theorem denotes_append_iff :
    A.Denotes (p ++ q) s ↔ ∃ u v, s = u ++ v ∧ A.Denotes p u ∧ A.Denotes q v := by
  induction p generalizing s with
  | nil => simp
  | cons k p ih =>
    cases hk : A.isStar k with
    | true =>
      rw [List.cons_append, denotes_star_iff hk]
      constructor
      · rintro ⟨w, t, rfl, ht⟩
        obtain ⟨u, v, rfl, hu, hv⟩ := ih.mp ht
        exact ⟨w ++ u, v, by simp, .star w hk hu, hv⟩
      · rintro ⟨u, v, rfl, hu, hv⟩
        obtain ⟨w, t, rfl, ht⟩ := (denotes_star_iff hk).mp hu
        exact ⟨w, t ++ v, by simp, ih.mpr ⟨t, v, rfl, ht, hv⟩⟩
    | false =>
      rw [List.cons_append, denotes_one_iff hk]
      constructor
      · rintro ⟨a, t, rfl, ha, ht⟩
        obtain ⟨u, v, rfl, hu, hv⟩ := ih.mp ht
        exact ⟨a :: u, v, rfl, .one hk ha hu, hv⟩
      · rintro ⟨u, v, rfl, hu, hv⟩
        obtain ⟨a, t, rfl, ha, ht⟩ := (denotes_one_iff hk).mp hu
        exact ⟨a, t ++ v, rfl, ha, ih.mpr ⟨t, v, rfl, ht, hv⟩⟩

theorem Alphabet.Plain.length_eq (hp : A.Plain p) (h : A.Denotes p s) : s.length = p.length := by
  induction h with
  | nil => rfl
  | star u hk _ _ =>
    have := hp _ (List.mem_cons_self ..)
    simp [hk] at this
  | one _ _ _ ih =>
    simp [ih fun k hk => hp k (List.mem_cons_of_mem _ hk)]

theorem Alphabet.Plain.append (hp : A.Plain p) (hq : A.Plain q) : A.Plain (p ++ q) := by
  intro k hk
  rcases List.mem_append.mp hk with h | h
  · exact hp k h
  · exact hq k h

/-! ### Stars -/

theorem denotes_star_of_suffix (hk : A.isStar k = true) {t : List α} (hts : t <:+ s)
    (h : A.Denotes (k :: p) t) : A.Denotes (k :: p) s := by
  obtain ⟨w, rfl⟩ := hts
  obtain ⟨u, v, rfl, hv⟩ := (denotes_star_iff hk).mp h
  rw [← List.append_assoc]
  exact .star _ hk hv

theorem denotes_star_cons_iff (hk : A.isStar k = true) {a : α} :
    A.Denotes (k :: p) (a :: s) ↔ A.Denotes p (a :: s) ∨ A.Denotes (k :: p) s := by
  rw [denotes_star_iff hk]
  constructor
  · rintro ⟨u, v, h, hv⟩
    cases u with
    | nil =>
      left
      rw [h]
      exact hv
    | cons b u =>
      right
      obtain ⟨rfl, rfl⟩ := List.cons.inj h
      exact .star u hk hv
  · rintro (h | h)
    · exact ⟨[], a :: s, rfl, h⟩
    · obtain ⟨u, v, rfl, hv⟩ := (denotes_star_iff hk).mp h
      exact ⟨a :: u, v, rfl, hv⟩

theorem denotes_star_star_iff (hk : A.isStar k = true) (hk' : A.isStar k' = true) :
    A.Denotes (k :: k' :: p) s ↔ A.Denotes (k' :: p) s := by
  constructor
  · intro h
    obtain ⟨u, v, rfl, hv⟩ := (denotes_star_iff hk).mp h
    exact denotes_star_of_suffix hk' ⟨u, rfl⟩ hv
  · intro h
    exact .star [] hk h

theorem denotes_star_cons_of_lt (hk : A.isStar k = true) (hp : A.Plain p) {a : α}
    (hlt : p.length < (a :: s).length) :
    A.Denotes (k :: p) (a :: s) ↔ A.Denotes (k :: p) s := by
  rw [denotes_star_cons_iff hk]
  refine or_iff_right fun h => ?_
  have := hp.length_eq h
  omega

theorem exists_suffix_of_denotes_star (hk : A.isStar k = true) (hp : A.Plain p) {v n : List α}
    (hv : A.Denotes p v) (h : A.Denotes (k :: (p ++ q)) (v ++ n)) :
    ∃ y, y <:+ n ∧ A.Denotes q y := by
  obtain ⟨w, t, hs, ht⟩ := (denotes_star_iff hk).mp h
  obtain ⟨x, y, rfl, hx, hy⟩ := denotes_append_iff.mp ht
  refine ⟨y, ?_, hy⟩
  have hlen : x.length = v.length := by rw [hp.length_eq hx, hp.length_eq hv]
  have hy' : y <:+ v ++ n := ⟨w ++ x, by rw [hs]; simp⟩
  refine List.suffix_of_suffix_length_le hy' ⟨v, rfl⟩ ?_
  have := congrArg List.length hs
  simp only [List.length_append] at this
  omega

theorem denotes_restart_iff (hk : A.isStar k = true) (hk' : A.isStar k' = true)
    (hp : A.Plain p) {v n : List α} (hv : A.Denotes p v) :
    A.Denotes (k :: (p ++ k' :: q)) (v ++ n) ↔ A.Denotes (k' :: q) n := by
  constructor
  · intro h
    obtain ⟨y, hsuf, hy⟩ := exists_suffix_of_denotes_star hk hp hv h
    exact denotes_star_of_suffix hk' hsuf hy
  · intro h
    exact .star [] hk (denotes_append_iff.mpr ⟨v, n, rfl, hv, h⟩)

end Glob
