import Ircd.Lib.Glob
import Mathlib.Data.List.Chain

/-!
A backtracking search for a wildcard pattern that remembers its last star only.

`search` walks the pattern and the string. At a star it skips the stars and remembers
where to resume, and where a test fails it gives the star one more symbol. With `rest`
it is content at the end of a pattern that had a star, whatever is left of the string.
`search_iff` says that it ends, and which strings it accepts.
-/

namespace Glob

open List

variable {κ α : Type*}

/-- The pattern behind the stars in front of it. -/
def Alphabet.dropStars (A : Alphabet κ α) (p : List κ) : List κ := p.dropWhile A.isStar

/-- At a star, skip the stars and remember where to resume. -/
def Alphabet.enter (A : Alphabet κ α) (p : List κ) (s : List α) (back : Option (List κ × List α)) :
    List κ × Option (List κ × List α) :=
  if p.head?.any A.isStar then (A.dropStars p, some (A.dropStars p, s)) else (p, back)

/-- The search, `none` where the rounds run out. -/
def Alphabet.search (A : Alphabet κ α) (rest : Bool) :
    Nat → List κ → List α → Option (List κ × List α) → Option Bool
  | 0, _, _, _ => none
  | rounds + 1, p, s, back =>
    match A.enter p s back with
    | ([], none) => some s.isEmpty
    | ([], some (pa, sa)) =>
        if s.isEmpty || rest then some true
        else A.search rest rounds pa sa.tail (some (pa, sa.tail))
    | (k :: p, back) =>
      match s with
      | [] => some false
      | a :: s =>
        if A.accept k a then A.search rest rounds p s back
        else
          match back with
          | none => some false
          | some (pa, sa) => A.search rest rounds pa sa.tail (some (pa, sa.tail))

/-- The rounds that a search for a string of this length takes at most. -/
def searchRounds (length : Nat) : Nat := (length + 1) * (length + 2)

variable {A : Alphabet κ α} {k k' star : κ} {p q u : List κ} {s v : List α} {a : α} {rest : Bool}
  {back back' : Option (List κ × List α)} {bound : Nat}

theorem Alphabet.Plain.singleton (hk : A.isStar k = false) : A.Plain [k] := by
  intro e he
  rwa [List.mem_singleton.mp he]

theorem dropStars_head : ¬ (A.dropStars p).head?.any A.isStar = true := by
  induction p with
  | nil => simp [Alphabet.dropStars]
  | cons k p ih =>
    cases hk : A.isStar k with
    | true => simpa [Alphabet.dropStars, hk] using ih
    | false => simp [Alphabet.dropStars, hk]

theorem denotes_swap_star_iff (hk : A.isStar k = true) (hk' : A.isStar k' = true) :
    A.Denotes (k :: p) s ↔ A.Denotes (k' :: p) s := by
  rw [denotes_star_iff hk, denotes_star_iff hk']

theorem denotes_dropStars_iff (hk : A.isStar k = true) :
    A.Denotes (k :: A.dropStars p ++ q) s ↔ A.Denotes (k :: p ++ q) s := by
  induction p with
  | nil => rfl
  | cons e p ih =>
    cases he : A.isStar e with
    | true =>
      have hstars : A.Denotes (k :: e :: p ++ q) s ↔ A.Denotes (k :: p ++ q) s :=
        (denotes_star_star_iff hk he).trans (denotes_swap_star_iff he hk)
      rw [hstars, ← ih]
      simp [Alphabet.dropStars, he]
    | false => simp [Alphabet.dropStars, he]

/-! ### The invariant -/

/-- What may follow the pattern once a star has been passed. -/
def restOf (star : κ) (rest : Bool) : List κ := if rest then [star] else []

/-- What the search has left to decide. -/
def Goal (A : Alphabet κ α) (star : κ) (rest : Bool) (p : List κ) (s : List α) :
    Option (List κ × List α) → Prop
  | none => A.Denotes (p ++ restOf star (rest && p.any A.isStar)) s
  | some (pa, sa) => A.Denotes (star :: pa ++ restOf star rest) sa

/-- Behind the last star, the tests `u` have matched the symbols `v`. -/
def Passed (A : Alphabet κ α) (p : List κ) (s : List α) : Option (List κ × List α) → Prop
  | none => True
  | some (pa, sa) => ∃ u v, pa = u ++ p ∧ sa = v ++ s ∧ A.Plain u ∧ A.Denotes u v

/-- The place to resume lies in the string, and not behind the current place. -/
def Within (bound : Nat) (s : List α) : Option (List κ × List α) → Prop
  | none => s.length ≤ bound
  | some (_, sa) => s.length ≤ sa.length ∧ sa.length ≤ bound

/-- The rounds that are still to come. -/
def roundsLeft (bound : Nat) (s : List α) : Option (List κ × List α) → Nat
  | none => bound * (bound + 2) + s.length
  | some (_, sa) => sa.length * (bound + 2) + s.length

theorem denotes_restOf (rest : Bool) (h : A.Denotes p s) (hstar : A.isStar star = true) :
    A.Denotes (p ++ restOf star rest) s := by
  refine denotes_append_iff.mpr ⟨s, [], by simp, h, ?_⟩
  cases rest with
  | true => exact .star [] hstar .nil
  | false => exact .nil

theorem enter_spec (rest : Bool) (hstar : A.isStar star = true) (hpassed : Passed A p s back)
    (h : A.enter p s back = (q, back')) :
    Passed A q s back' ∧ (Goal A star rest q s back' ↔ Goal A star rest p s back) ∧
      ¬ q.head?.any A.isStar = true := by
  unfold Alphabet.enter at h
  split at h
  case isFalse hhead =>
    obtain ⟨rfl, rfl⟩ := Prod.mk.inj h
    exact ⟨hpassed, Iff.rfl, hhead⟩
  case isTrue hhead =>
    obtain ⟨rfl, rfl⟩ := Prod.mk.inj h
    obtain ⟨k, r, rfl, hk⟩ : ∃ k r, p = k :: r ∧ A.isStar k = true := by
      cases p with
      | nil => simp at hhead
      | cons k r => exact ⟨k, r, rfl, by simpa using hhead⟩
    have hdrop : A.dropStars (k :: r) = A.dropStars r := by simp [Alphabet.dropStars, hk]
    have hswap : A.Denotes (star :: A.dropStars r ++ restOf star rest) s ↔
        A.Denotes (k :: (r ++ restOf star rest)) s :=
      (denotes_dropStars_iff hstar).trans (denotes_swap_star_iff hstar hk)
    refine ⟨⟨[], [], rfl, rfl, fun c hc => absurd hc not_mem_nil, .nil⟩, ?_, dropStars_head⟩
    rw [hdrop]
    cases back with
    | none =>
      simp only [Goal, any_cons, hk, Bool.true_or, Bool.and_true]
      exact hswap
    | some b =>
      obtain ⟨pa, sa⟩ := b
      obtain ⟨u, v, rfl, rfl, hu, huv⟩ := hpassed
      simp only [Goal]
      rw [hswap, ← denotes_restart_iff hstar hk hu huv]
      simp

theorem enter_within (hb : Within bound s back) (h : A.enter p s back = (q, back')) :
    Within bound s back' ∧ roundsLeft bound s back' ≤ roundsLeft bound s back := by
  unfold Alphabet.enter at h
  split at h
  case isFalse =>
    obtain ⟨rfl, rfl⟩ := Prod.mk.inj h
    exact ⟨hb, le_refl _⟩
  case isTrue =>
    obtain ⟨rfl, rfl⟩ := Prod.mk.inj h
    cases back with
    | none =>
      have := Nat.mul_le_mul_right (bound + 2) hb
      exact ⟨⟨le_refl _, hb⟩, Nat.add_le_add_right this _⟩
    | some b =>
      have := Nat.mul_le_mul_right (bound + 2) hb.1
      exact ⟨⟨le_refl _, hb.1.trans hb.2⟩, Nat.add_le_add_right this _⟩

theorem resume_within {pa : List κ} {sa : List α} (hb : Within bound s (some (pa, a :: sa))) :
    Passed A pa sa (some (pa, sa)) ∧ Within bound sa (some (pa, sa)) ∧
      roundsLeft bound sa (some (pa, sa)) < roundsLeft bound s (some (pa, a :: sa)) := by
  have hlen := hb.2
  rw [length_cons] at hlen
  refine ⟨⟨[], [], rfl, rfl, fun c hc => absurd hc not_mem_nil, .nil⟩,
    ⟨le_refl _, by omega⟩, ?_⟩
  simp only [roundsLeft, length_cons]
  rw [Nat.add_mul]
  omega

theorem advance_within (hb : Within bound (a :: s) back) :
    Within bound s back ∧ roundsLeft bound s back < roundsLeft bound (a :: s) back := by
  cases back with
  | none =>
    simp only [Within, roundsLeft, length_cons] at hb ⊢
    omega
  | some b =>
    simp only [Within, roundsLeft, length_cons] at hb ⊢
    omega

theorem Passed.advance (star : κ) (rest : Bool) (h : Passed A (k :: p) (a :: s) back)
    (hk : A.isStar k = false)
    (hok : A.accept k a = true) :
    Passed A p s back ∧ (Goal A star rest p s back ↔ Goal A star rest (k :: p) (a :: s) back) := by
  cases back with
  | none =>
    refine ⟨trivial, ?_⟩
    simp only [Goal, cons_append, denotes_one_cons_iff hk, any_cons, hk, Bool.false_or]
    exact (and_iff_right hok).symm
  | some b =>
    obtain ⟨pa, sa⟩ := b
    obtain ⟨u, v, rfl, rfl, hu, huv⟩ := h
    have hone : A.Denotes [k] [a] := .one hk hok .nil
    refine ⟨⟨u ++ [k], v ++ [a], by simp, by simp, hu.append (.singleton hk), ?_⟩, Iff.rfl⟩
    exact denotes_append_iff.mpr ⟨v, [a], rfl, huv, hone⟩

theorem Passed.resume_iff {pa : List κ} {sa : List α} (hstar : A.isStar star = true)
    (h : Passed A (k :: p) (a :: s) (some (pa, sa))) (hk : A.isStar k = false)
    (hok : A.accept k a = false) :
    A.Denotes (star :: pa ++ q) sa ↔ A.Denotes (star :: pa ++ q) sa.tail := by
  obtain ⟨u, v, rfl, rfl, hu, huv⟩ := h
  have hnot : ¬ A.Denotes (u ++ k :: p ++ q) (v ++ a :: s) := by
    intro h
    rw [append_assoc] at h
    obtain ⟨x, y, hxy, hx, hy⟩ := denotes_append_iff.mp h
    have hlen : v.length = x.length := by rw [hu.length_eq huv, hu.length_eq hx]
    obtain ⟨-, rfl⟩ := append_inj hxy hlen
    have := ((denotes_one_cons_iff hk).mp hy).1
    rw [hok] at this
    cases this
  obtain ⟨e, t, het⟩ : ∃ e t, v ++ a :: s = e :: t := by
    cases v with
    | nil => exact ⟨_, _, rfl⟩
    | cons e v => exact ⟨_, _, rfl⟩
  rw [het] at hnot ⊢
  exact (denotes_star_cons_iff hstar).trans (or_iff_right hnot)

theorem Passed.not_goal_nil (hstar : A.isStar star = true) (h : Passed A (k :: p) [] back)
    (hk : A.isStar k = false) : ¬ Goal A star rest (k :: p) ([] : List α) back := by
  have hnil : ∀ q, ¬ A.Denotes (k :: q) ([] : List α) := by
    intro q hq
    obtain ⟨a, t, hat, -⟩ := (denotes_one_iff hk).mp hq
    cases hat
  cases back with
  | none => exact hnil _
  | some b =>
    obtain ⟨pa, sa⟩ := b
    obtain ⟨u, v, rfl, rfl, hu, huv⟩ := h
    intro hgoal
    simp only [Goal, cons_append, append_assoc] at hgoal
    obtain ⟨y, hy, hden⟩ := exists_suffix_of_denotes_star hstar hu huv hgoal
    rw [List.suffix_nil.mp hy] at hden
    exact hnil _ hden

theorem Passed.at_end_iff {pa : List κ} {sa : List α} (hstar : A.isStar star = true)
    (h : Passed A [] (a :: s) (some (pa, sa))) :
    Goal A star rest [] (a :: s) (some (pa, sa)) ↔
      rest = true ∨ Goal A star rest pa sa.tail (some (pa, sa.tail)) := by
  obtain ⟨u, v, rfl, rfl, hu, huv⟩ := h
  simp only [Goal, append_nil]
  cases rest with
  | true =>
    refine iff_of_true ?_ (Or.inl rfl)
    have htake : A.Denotes (u ++ [star]) (v ++ a :: s) :=
      denotes_append_iff.mpr ⟨v, a :: s, rfl, huv,
        (denotes_star_iff hstar).mpr ⟨a :: s, [], by simp, .nil⟩⟩
    exact .star [] hstar htake
  | false =>
    rw [or_iff_right (by simp)]
    obtain ⟨e, t, het⟩ : ∃ e t, v ++ a :: s = e :: t := by
      cases v with
      | nil => exact ⟨_, _, rfl⟩
      | cons e v => exact ⟨_, _, rfl⟩
    have hlt : u.length < (e :: t).length := by
      rw [← het, length_append, length_cons, ← hu.length_eq huv]
      omega
    simp only [restOf, Bool.false_eq_true, if_false, append_nil]
    rw [het, tail_cons, denotes_star_cons_of_lt hstar hu hlt]

/-! ### The search -/

theorem search_goal (hstar : A.isStar star = true) {rounds : Nat} (hpassed : Passed A p s back)
    (hb : Within bound s back) (hrounds : roundsLeft bound s back < rounds) :
    ∃ b, A.search rest rounds p s back = some b ∧ (b = true ↔ Goal A star rest p s back) := by
  induction rounds generalizing p s back with
  | zero => omega
  | succ rounds ih =>
    obtain ⟨q, back', henter⟩ : ∃ q back', A.enter p s back = (q, back') := ⟨_, _, rfl⟩
    obtain ⟨hpassed', hgoal, hhead⟩ := enter_spec rest hstar hpassed henter
    obtain ⟨hb', hle⟩ := enter_within hb henter
    simp only [← hgoal]
    unfold Alphabet.search
    rw [henter]
    -- where the star takes one more symbol, the induction hypothesis decides
    have hresume : ∀ pa sa, back' = some (pa, sa) → sa ≠ [] →
        ∃ b, A.search rest rounds pa sa.tail (some (pa, sa.tail)) = some b ∧
          (b = true ↔ Goal A star rest pa sa.tail (some (pa, sa.tail))) := by
      rintro pa sa rfl hsa
      obtain ⟨e, t, rfl⟩ := exists_cons_of_ne_nil hsa
      obtain ⟨hp'', hb'', hm⟩ := resume_within (A := A) hb'
      exact ih hp'' hb'' (by simp only [tail_cons]; omega)
    have hmore : ∀ pa sa e t, back' = some (pa, sa) → s = e :: t → sa ≠ [] := by
      rintro pa sa e t rfl rfl rfl
      simp [Within] at hb'
    cases q with
    | nil =>
      cases back' with
      | none => exact ⟨_, rfl, by simp [Goal, restOf]⟩
      | some b =>
        obtain ⟨pa, sa⟩ := b
        cases s with
        | nil =>
          obtain ⟨u, v, rfl, rfl, -, huv⟩ := hpassed'
          refine ⟨true, rfl, iff_of_true rfl ?_⟩
          simp only [Goal, append_nil]
          exact .star [] hstar (denotes_restOf rest huv hstar)
        | cons a s =>
          simp only [hpassed'.at_end_iff hstar, isEmpty_cons, Bool.false_or]
          cases rest with
          | true => exact ⟨true, rfl, by simp⟩
          | false => simpa using hresume pa sa rfl (hmore pa sa a s rfl rfl)
    | cons k q =>
      have hk : A.isStar k = false := by simpa using hhead
      cases s with
      | nil => exact ⟨false, rfl, iff_of_false nofun (hpassed'.not_goal_nil hstar hk)⟩
      | cons a s =>
        cases hok : A.accept k a with
        | true =>
          obtain ⟨hp'', hg⟩ := hpassed'.advance star rest hk hok
          obtain ⟨hb'', hm⟩ := advance_within hb'
          simp only [hok, if_true, ← hg]
          exact ih hp'' hb'' (by omega)
        | false =>
          simp only [hok, Bool.false_eq_true, if_false]
          cases back' with
          | none =>
            refine ⟨false, rfl, iff_of_false nofun ?_⟩
            rw [Goal, cons_append, denotes_one_cons_iff hk]
            simp [hok]
          | some b =>
            obtain ⟨pa, sa⟩ := b
            have hiff : Goal A star rest (k :: q) (a :: s) (some (pa, sa)) ↔
                Goal A star rest pa sa.tail (some (pa, sa.tail)) :=
              hpassed'.resume_iff hstar hk hok
            rw [hiff]
            exact hresume pa sa rfl (hmore pa sa a s rfl rfl)

theorem search_iff (rest : Bool) (p : List κ) (s : List α) (hstar : A.isStar star = true)
    {rounds : Nat} (h : searchRounds s.length ≤ rounds) :
    ∃ b, A.search rest rounds p s none = some b ∧
      (b = true ↔ A.Denotes (p ++ restOf star (rest && p.any A.isStar)) s) := by
  have hb : Within s.length s (none : Option (List κ × List α)) := le_refl _
  refine search_goal hstar (trivial : Passed A p s none) hb ?_
  simp only [searchRounds, Nat.add_mul] at h
  simp only [roundsLeft]
  omega

/-! ### Languages of related patterns -/

theorem not_denotes_of_mem (hmem : k ∈ p) (hk : A.isStar k = false)
    (hno : ∀ a, A.accept k a = false) :
    ¬ A.Denotes p s := by
  intro h
  induction h with
  | nil => cases hmem
  | star u hk' _ ih =>
    rcases List.mem_cons.mp hmem with rfl | hp
    · rw [hk] at hk'
      cases hk'
    · exact ih hp
  | one _ hok _ ih =>
    rcases List.mem_cons.mp hmem with rfl | hp
    · rw [hno] at hok
      cases hok
    · exact ih hp

theorem denotes_of_agree {B : Alphabet κ α} (hstar : ∀ k ∈ p, A.isStar k = B.isStar k)
    (hok : ∀ k ∈ p, ∀ a, A.accept k a = B.accept k a) (h : A.Denotes p s) : B.Denotes p s := by
  induction h with
  | nil => exact .nil
  | star u hk _ ih =>
    refine .star u ((hstar _ mem_cons_self).symm.trans hk) (ih ?_ ?_)
    · exact fun k hk => hstar k (mem_cons_of_mem _ hk)
    · exact fun k hk => hok k (mem_cons_of_mem _ hk)
  | one hk ha _ ih =>
    refine .one ((hstar _ mem_cons_self).symm.trans hk)
      ((hok _ mem_cons_self _).symm.trans ha) (ih ?_ ?_)
    · exact fun k hk => hstar k (mem_cons_of_mem _ hk)
    · exact fun k hk => hok k (mem_cons_of_mem _ hk)

theorem denotes_congr {B : Alphabet κ α} (hstar : ∀ k ∈ p, A.isStar k = B.isStar k)
    (hok : ∀ k ∈ p, ∀ a, A.accept k a = B.accept k a) : A.Denotes p s ↔ B.Denotes p s :=
  ⟨denotes_of_agree hstar hok, denotes_of_agree (fun k hk => (hstar k hk).symm)
    fun k hk a => (hok k hk a).symm⟩

theorem denotes_map_iff {κ' : Type*} {B : Alphabet κ' α} (f : κ → κ')
    (hstar : ∀ k, B.isStar (f k) = A.isStar k)
    (hok : ∀ k, A.isStar k = false → ∀ a, B.accept (f k) a = A.accept k a) :
    B.Denotes (p.map f) s ↔ A.Denotes p s := by
  induction p generalizing s with
  | nil => simp
  | cons k p ih =>
    rw [map_cons]
    cases hk : A.isStar k with
    | true =>
      rw [denotes_star_iff ((hstar k).trans hk), denotes_star_iff hk]
      simp only [ih]
    | false =>
      rw [denotes_one_iff ((hstar k).trans hk), denotes_one_iff hk]
      simp only [ih, hok k hk]

theorem forall₂_of_denotes (h : A.Denotes p s) (hs : s.length ≤ (p.filter (!A.isStar ·)).length) :
    List.Forall₂ (fun k a => A.accept k a = true) (p.filter (!A.isStar ·)) s := by
  have hlong : ∀ {p : List κ} {s : List α}, A.Denotes p s →
      (p.filter (!A.isStar ·)).length ≤ s.length := by
    intro p s h
    induction h with
    | nil => exact Nat.le_refl _
    | star u hk _ ih =>
      simp only [filter_cons, hk, Bool.not_true, Bool.false_eq_true, if_false,
        length_append]
      omega
    | one hk _ _ ih =>
      simp only [filter_cons, hk, Bool.not_false, if_true, length_cons]
      omega
  induction h with
  | nil => exact .nil
  | @star k p u v hk hp ih =>
    simp only [filter_cons, hk, Bool.not_true, Bool.false_eq_true, if_false,
      length_append] at hs ⊢
    have := hlong hp
    obtain rfl : u = [] := List.length_eq_zero_iff.mp (by omega)
    exact ih (by omega)
  | one hk ha hp ih =>
    simp only [filter_cons, hk, Bool.not_false, if_true, length_cons] at hs ⊢
    exact .cons ha (ih (by omega))

theorem denotes_of_forall₂
    (h : List.Forall₂ (fun k a => A.accept k a = true) (p.filter (!A.isStar ·)) s) : A.Denotes p
      s := by
  induction p generalizing s with
  | nil =>
    cases h
    exact .nil
  | cons k p ih =>
    cases hk : A.isStar k with
    | true =>
      rw [filter_cons, hk] at h
      exact .star [] hk (ih h)
    | false =>
      rw [filter_cons, hk] at h
      cases h with
      | cons ha hs => exact .one hk ha (ih hs)

theorem denotes_of_accept_all (hp : A.Plain p) (hall : ∀ k ∈ p, ∀ a, A.accept k a = true)
    (hlen : s.length = p.length) : A.Denotes p s := by
  induction p generalizing s with
  | nil => exact denotes_nil_iff.mpr (List.length_eq_zero_iff.mp hlen)
  | cons k p ih =>
    cases s with
    | nil => cases hlen
    | cons a s =>
      refine .one (hp k mem_cons_self) (hall k mem_cons_self a) (ih ?_ ?_ ?_)
      · exact fun e he => hp e (mem_cons_of_mem _ he)
      · exact fun e he => hall e (mem_cons_of_mem _ he)
      · exact Nat.succ.inj hlen

theorem denotes_open_star_iff (hk : A.isStar k = true) (hstar : A.isStar star = true)
    (hu : A.Plain u)
    (hall : ∀ e ∈ u, ∀ a, A.accept e a = true) :
    A.Denotes (p ++ k :: u ++ [star]) s ↔ A.Denotes (p ++ k :: u) s := by
  have htail : ∀ t, A.Denotes (k :: (u ++ [star])) t ↔ A.Denotes (k :: u) t := by
    intro t
    constructor
    · intro h
      obtain ⟨w, t', rfl, ht'⟩ := (denotes_star_iff hk).mp h
      obtain ⟨x, y, rfl, hx, -⟩ := denotes_append_iff.mp ht'
      have hlen := hu.length_eq hx
      refine denotes_star_of_suffix hk (suffix_append w (x ++ y)) ?_
      rw [← take_append_drop y.length (x ++ y)]
      refine .star _ hk (denotes_of_accept_all hu hall ?_)
      rw [length_drop, length_append]
      omega
    · intro h
      obtain ⟨w, t', rfl, ht'⟩ := (denotes_star_iff hk).mp h
      exact .star w hk (denotes_restOf true ht' hstar)
  rw [append_assoc, denotes_append_iff, denotes_append_iff]
  simp only [cons_append, htail]

/-! ### Runs of stars -/

/-- The pattern with one star for each run of stars. -/
def Alphabet.squeeze (A : Alphabet κ α) : List κ → List κ
  | [] => []
  | k :: p => if A.isStar k && p.head?.any A.isStar then A.squeeze p else k :: A.squeeze p

theorem squeeze_cons (k : κ) (p : List κ) : A.squeeze (k :: p) =
    if A.isStar k && p.head?.any A.isStar then A.squeeze p else k :: A.squeeze p := rfl

theorem denotes_squeeze_iff : A.Denotes (A.squeeze p) s ↔ A.Denotes p s := by
  induction p generalizing s with
  | nil => rfl
  | cons k p ih =>
    rw [squeeze_cons]
    split
    case isTrue h =>
      obtain ⟨hk, hhead⟩ := Bool.and_eq_true_iff.mp h
      cases p with
      | nil => cases hhead
      | cons e p => rw [ih, denotes_star_star_iff hk hhead]
    case isFalse h =>
      cases hk : A.isStar k with
      | true =>
        rw [denotes_star_iff hk, denotes_star_iff hk]
        simp only [ih]
      | false =>
        rw [denotes_one_iff hk, denotes_one_iff hk]
        simp only [ih]

theorem any_isStar_squeeze : (A.squeeze p).any A.isStar = p.any A.isStar := by
  induction p with
  | nil => rfl
  | cons k p ih =>
    rw [squeeze_cons]
    split
    case isTrue h =>
      obtain ⟨hk, hhead⟩ := Bool.and_eq_true_iff.mp h
      cases p with
      | nil => cases hhead
      | cons e p =>
        rw [head?_cons, Option.any_some] at hhead
        rw [ih, any_cons, any_cons, hk, hhead]
        rfl
    case isFalse => rw [any_cons, any_cons, ih]

theorem head_isStar_squeeze : (A.squeeze p).head?.any A.isStar = p.head?.any A.isStar := by
  induction p with
  | nil => rfl
  | cons k p ih =>
    rw [squeeze_cons]
    split
    case isTrue h =>
      obtain ⟨hk, hhead⟩ := Bool.and_eq_true_iff.mp h
      rw [ih, hhead, head?_cons, Option.any_some, hk]
    case isFalse => rfl

theorem isChain_squeeze :
    List.IsChain (fun k e => ¬ (A.isStar k = true ∧ A.isStar e = true)) (A.squeeze p) := by
  induction p with
  | nil => exact .nil
  | cons k p ih =>
    rw [squeeze_cons]
    split
    case isTrue => exact ih
    case isFalse h =>
      rw [isChain_cons]
      refine ⟨fun e he => ?_, ih⟩
      rintro ⟨hk, hstar⟩
      have hhead := head_isStar_squeeze (A := A) (p := p)
      rw [Option.mem_def.mp he, Option.any_some, hstar] at hhead
      exact h (by rw [hk, ← hhead]; rfl)

theorem squeeze_eq_self
    (h : List.IsChain (fun k e => ¬ (A.isStar k = true ∧ A.isStar e = true)) p) : A.squeeze p =
      p := by
  induction p with
  | nil => rfl
  | cons k p ih =>
    rw [isChain_cons] at h
    rw [squeeze_cons, ih h.2, if_neg]
    intro hstars
    obtain ⟨hk, hhead⟩ := Bool.and_eq_true_iff.mp hstars
    cases p with
    | nil => cases hhead
    | cons e p => exact h.1 e rfl ⟨hk, hhead⟩

theorem length_squeeze_le : (A.squeeze p).length ≤ p.length := by
  induction p with
  | nil => exact le_refl _
  | cons k p ih =>
    rw [squeeze_cons]
    split
    case isTrue => exact Nat.le_succ_of_le ih
    case isFalse => exact Nat.succ_le_succ ih

end Glob
