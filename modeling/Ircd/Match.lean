import Ircd.Text
import Ircd.Lib.Glob

/-!
The wildcard matcher of `match.c` and the language it decides.

`match` walks the mask and the name with two pointers and returns to the last
star it passed when a character does not fit. `match_iff` says that it decides
the language of the mask: `*` is any string, `?` any character, `#` a digit
or a `#`, and every other character stands for itself up to case.
-/

namespace Ircd

open List

/-! ### The matcher -/

/-- The comparison of `match`: the mask character `m` accepts the character
`n` of the name. -/
def maskCharOk (m n : Char) : Bool :=
  toLower m == toLower n || m == '?' || (m == '#' && isDigit n)

/-- `while (*m == '*') m++`. -/
def skipStars (m : CStr) : CStr := m.dropWhile (· == '*')

/-- At the end of the mask: step back over `?` to a `*`, that is, the mask
ends in a star followed by `?` only. -/
def endsInOpenStar (mask : CStr) : Bool :=
  (mask.reverse.dropWhile (· == '?')).head? == some '*'

/-- The head of the loop: at a star, skip the stars and remember in `ma` and
`na` where to resume. -/
def enterStar (m n : CStr) (back : Option (CStr × CStr)) : CStr × Option (CStr × CStr) :=
  if m.head? = some '*' then (skipStars m, some (skipStars m, n)) else (m, back)

/-- The loop of `match`. `back` holds the pointers `ma` and `na`, or `none`
while `ma` is null. -/
def matchLoop (mask : CStr) : Nat → CStr → CStr → Option (CStr × CStr) → Bool
  | 0, _, _, _ => false
  | fuel + 1, m, n, back =>
    match enterStar m n back with
    | ([], none) => n.isEmpty
    | ([], some (ma, na)) =>
        if n.isEmpty then true
        else if endsInOpenStar mask then true
        else matchLoop mask fuel ma na.tail (some (ma, na.tail))
    | (c :: m, back) =>
      match n with
      | [] => (skipStars (c :: m)).isEmpty
      | d :: n =>
        if maskCharOk c d then matchLoop mask fuel m n back
        else
          match back with
          | none => false
          | some (ma, na) => matchLoop mask fuel ma na.tail (some (ma, na.tail))

/-- `match`. A round of the loop either moves on in the name or moves the
place to resume, which bounds the rounds. -/
def matchMask (mask name : CStr) : Bool :=
  matchLoop mask ((name.length + 1) * (name.length + 2)) mask name none

/-- The loop of `match_esc`: a backslash takes the next character of the mask
for itself. -/
def matchEscLoop (mask : CStr) : Nat → CStr → CStr → Option (CStr × CStr) → Bool
  | 0, _, _, _ => false
  | fuel + 1, m, n, back =>
    match enterStar m n back with
    | ([], none) => n.isEmpty
    | ([], some (ma, na)) =>
        if n.isEmpty then true
        else if endsInOpenStar mask then true
        else matchEscLoop mask fuel ma na.tail (some (ma, na.tail))
    | (c :: m, back) =>
      match n with
      | [] => (skipStars (c :: m)).isEmpty
      | d :: n =>
        if c != '?' && (c != '#' || isDigit d) then
          match if c = '\\' then m else c :: m with
          | [] => false
          | e :: m =>
            if toLower e = toLower d then matchEscLoop mask fuel m n back
            else
              match back with
              | none => false
              | some (ma, na) => matchEscLoop mask fuel ma na.tail (some (ma, na.tail))
        else matchEscLoop mask fuel m n back

/-- `match_esc`. -/
def matchEsc (mask name : CStr) : Bool :=
  matchEscLoop mask ((name.length + 1) * (name.length + 2)) mask name none

/-- `collapse`: of adjacent stars, keep the last. -/
def collapse : CStr → CStr
  | [] => []
  | c :: p => if c = '*' ∧ p.head? = some '*' then collapse p else c :: collapse p

/-! ### The language of a mask -/

/-- The mask characters as wildcard tokens. -/
def ircMask : Glob.Alphabet Char Char where
  isStar c := c == '*'
  accept := maskCharOk

theorem isStar_star : ircMask.isStar '*' = true := rfl

theorem isStar_eq_false {c : Char} (hc : c ≠ '*') : ircMask.isStar c = false := by
  simpa [ircMask] using hc

theorem denotes_skipStars_iff {m n : CStr} :
    ircMask.Denotes ('*' :: skipStars m) n ↔ ircMask.Denotes ('*' :: m) n := by
  induction m with
  | nil => rfl
  | cons c m ih =>
    by_cases hc : c = '*'
    · subst hc
      rw [Glob.denotes_star_star_iff isStar_star isStar_star, ← ih]
      simp [skipStars]
    · simp [skipStars, hc]

theorem skipStars_head {m : CStr} : (skipStars m).head? ≠ some '*' := by
  intro h
  induction m with
  | nil => simp [skipStars] at h
  | cons c m ih =>
    by_cases hc : c = '*'
    · exact ih (by simpa [skipStars, hc] using h)
    · simp [skipStars, hc] at h

theorem endsInOpenStar_iff {pre u : CStr} (hu : ircMask.Plain u) :
    endsInOpenStar (pre ++ '*' :: u) = true ↔ ∀ c ∈ u, c = '?' := by
  have hrev : (pre ++ '*' :: u).reverse = u.reverse ++ '*' :: pre.reverse := by simp
  have hplain : ∀ c ∈ u.reverse, c ≠ '*' := by
    intro c hc
    simpa [ircMask] using hu c (List.mem_reverse.mp hc)
  have key : ∀ w : CStr, (∀ c ∈ w, c ≠ '*') →
      (((w ++ '*' :: pre.reverse).dropWhile (· == '?')).head? = some '*' ↔ ∀ c ∈ w, c = '?') := by
    intro w
    induction w with
    | nil => simp
    | cons c w ih =>
      intro hw
      by_cases hc : c = '?'
      · simpa [hc] using ih fun d hd => hw d (mem_cons_of_mem _ hd)
      · simp [hc, hw c (mem_cons_self ..)]
  simp only [endsInOpenStar, hrev, beq_iff_eq]
  rw [key _ hplain]
  simp

theorem denotes_of_all_any {u n : CStr} (hu : ∀ c ∈ u, c = '?') (hlen : n.length = u.length) :
    ircMask.Denotes u n := by
  induction u generalizing n with
  | nil =>
    rw [Glob.denotes_nil_iff]
    exact List.length_eq_zero_iff.mp hlen
  | cons c u ih =>
    cases n with
    | nil => simp at hlen
    | cons d n =>
      have hc : c = '?' := hu c (mem_cons_self ..)
      refine .one (isStar_eq_false (by simp [hc])) ?_
        (ih (fun e he => hu e (mem_cons_of_mem _ he)) (by simpa using hlen))
      simp [ircMask, maskCharOk, hc]

theorem denotes_star_of_all_any {u n : CStr} (hu : ∀ c ∈ u, c = '?') (hlen : u.length ≤ n.length) :
    ircMask.Denotes ('*' :: u) n := by
  rw [← take_append_drop (n.length - u.length) n]
  refine .star _ isStar_star (denotes_of_all_any hu ?_)
  rw [length_drop]
  omega

/-! ### The loop decides the language -/

/-- What the loop has left to decide: the rest of the mask against the rest of
the name, or everything the last star can still take. -/
def LoopGoal (m n : CStr) : Option (CStr × CStr) → Prop
  | none => ircMask.Denotes m n
  | some (ma, na) => ircMask.Denotes ('*' :: ma) na

/-- The invariant of the loop. Behind the last star, the tests `u` have
matched the characters `v`. -/
def LoopInv (mask m n : CStr) : Option (CStr × CStr) → Prop
  | none => ∃ pre, mask = pre ++ m
  | some (ma, na) => ∃ pre u v, mask = pre ++ '*' :: ma ∧ ma = u ++ m ∧ na = v ++ n ∧
      ircMask.Plain u ∧ ircMask.Denotes u v

/-- The rounds the loop can still make: it moves on in the name, or it moves
the place to resume on and returns there. -/
def loopMeasure (bound : Nat) (n : CStr) : Option (CStr × CStr) → Nat
  | none => bound * (bound + 2) + n.length
  | some (_, na) => na.length * (bound + 2) + n.length

theorem LoopInv.suffix {mask m n : CStr} {back : Option (CStr × CStr)}
    (h : LoopInv mask m n back) : ∃ pre, mask = pre ++ m := by
  cases back with
  | none => exact h
  | some b =>
    obtain ⟨ma, na⟩ := b
    obtain ⟨pre, u, v, rfl, rfl, -⟩ := h
    exact ⟨pre ++ '*' :: u, by simp⟩

theorem skipStars_split (m : CStr) : ∃ k, '*' :: m = List.replicate k '*' ++ '*' :: skipStars
    m := by
  induction m with
  | nil => exact ⟨0, rfl⟩
  | cons c m ih =>
    by_cases hc : c = '*'
    · obtain ⟨k, hk⟩ := ih
      refine ⟨k + 1, ?_⟩
      have hskip : skipStars ('*' :: m) = skipStars m := by simp [skipStars]
      rw [hc, hskip, hk, replicate_succ, cons_append]
    · exact ⟨0, by simp [skipStars, hc]⟩

theorem enterStar_spec {mask m n : CStr} {back : Option (CStr × CStr)}
    (hinv : LoopInv mask m n back) {m' : CStr} {back' : Option (CStr × CStr)}
    (h : enterStar m n back = (m', back')) :
    LoopInv mask m' n back' ∧ (LoopGoal m' n back' ↔ LoopGoal m n back) ∧
      m'.head? ≠ some '*' := by
  unfold enterStar at h
  split at h
  case isFalse hstar =>
    obtain ⟨rfl, rfl⟩ := Prod.mk.inj h
    exact ⟨hinv, Iff.rfl, hstar⟩
  case isTrue hstar =>
    obtain ⟨rfl, rfl⟩ := Prod.mk.inj h
    obtain ⟨r, rfl⟩ : ∃ r, m = '*' :: r := by
      cases m with
      | nil => simp at hstar
      | cons c r => exact ⟨r, by simpa using hstar⟩
    have hskip : skipStars ('*' :: r) = skipStars r := by simp [skipStars]
    obtain ⟨k, hk⟩ := skipStars_split r
    refine ⟨?_, ?_, skipStars_head⟩
    · obtain ⟨pre, rfl⟩ := hinv.suffix
      refine ⟨pre ++ List.replicate k '*', [], [], ?_, rfl, rfl, ?_, .nil⟩
      · rw [hskip, hk]
        simp
      · intro c hc
        simp at hc
    · rw [hskip]
      simp only [LoopGoal]
      rw [denotes_skipStars_iff]
      cases back with
      | none => rfl
      | some b =>
        obtain ⟨ma, na⟩ := b
        obtain ⟨pre, u, v, -, rfl, rfl, hu, huv⟩ := hinv
        exact (Glob.denotes_restart_iff isStar_star isStar_star hu huv).symm

/-- The place to resume lies in the name, and not behind the current place. -/
def LoopBounded (bound : Nat) (n : CStr) : Option (CStr × CStr) → Prop
  | none => n.length ≤ bound
  | some (_, na) => n.length ≤ na.length ∧ na.length ≤ bound

theorem enterStar_bounded {bound : Nat} {m n : CStr} {back : Option (CStr × CStr)}
    (hb : LoopBounded bound n back) {m' : CStr} {back' : Option (CStr × CStr)}
    (h : enterStar m n back = (m', back')) :
    LoopBounded bound n back' ∧ loopMeasure bound n back' ≤ loopMeasure bound n back := by
  unfold enterStar at h
  split at h
  case isFalse =>
    obtain ⟨rfl, rfl⟩ := Prod.mk.inj h
    exact ⟨hb, le_refl _⟩
  case isTrue =>
    obtain ⟨rfl, rfl⟩ := Prod.mk.inj h
    cases back with
    | none =>
      have := Nat.mul_le_mul_right (bound + 2) hb
      exact ⟨⟨le_refl _, hb⟩, Nat.add_le_add_right this _⟩
    | some b =>
      have := Nat.mul_le_mul_right (bound + 2) hb.1
      exact ⟨⟨le_refl _, hb.1.trans hb.2⟩, Nat.add_le_add_right this _⟩

theorem resume_spec {mask m n ma na : CStr} {bound : Nat} {e : Char}
    (hinv : LoopInv mask m n (some (ma, e :: na)))
    (hb : LoopBounded bound n (some (ma, e :: na))) :
    LoopInv mask ma na (some (ma, na)) ∧ LoopBounded bound na (some (ma, na)) ∧
      loopMeasure bound na (some (ma, na)) < loopMeasure bound n (some (ma, e :: na)) := by
  obtain ⟨pre, u, v, hmask, -⟩ := hinv
  have hlen := hb.2
  rw [length_cons] at hlen
  refine ⟨⟨pre, [], [], hmask, rfl, rfl, fun c hc => by simp at hc, .nil⟩,
    ⟨le_refl _, by omega⟩, ?_⟩
  simp only [loopMeasure, length_cons]
  rw [Nat.add_mul]
  omega

theorem step_bounded {bound : Nat} {d : Char} {n : CStr} {back : Option (CStr × CStr)}
    (hb : LoopBounded bound (d :: n) back) :
    LoopBounded bound n back ∧ loopMeasure bound n back < loopMeasure bound (d :: n) back := by
  cases back with
  | none =>
    simp only [LoopBounded, loopMeasure, length_cons] at hb ⊢
    omega
  | some b =>
    simp only [LoopBounded, loopMeasure, length_cons] at hb ⊢
    omega

theorem skipStars_isEmpty_eq_false {c : Char} {m : CStr} (hc : c ≠ '*') :
    (skipStars (c :: m)).isEmpty = false := by
  simp [skipStars, hc]

theorem LoopInv.step {mask m n : CStr} {c d : Char} {back : Option (CStr × CStr)}
    (hinv : LoopInv mask (c :: m) (d :: n) back) (hc : c ≠ '*') (hok : maskCharOk c d = true) :
    LoopInv mask m n back ∧ (LoopGoal m n back ↔ LoopGoal (c :: m) (d :: n) back) := by
  have hstar : ircMask.isStar c = false := isStar_eq_false hc
  cases back with
  | none =>
    obtain ⟨pre, rfl⟩ := hinv
    refine ⟨⟨pre ++ [c], by simp⟩, ?_⟩
    simp only [LoopGoal, Glob.denotes_one_cons_iff hstar]
    exact (and_iff_right hok).symm
  | some b =>
    obtain ⟨ma, na⟩ := b
    obtain ⟨pre, u, v, rfl, rfl, rfl, hu, huv⟩ := hinv
    have hone : ircMask.Denotes [c] [d] := .one hstar hok .nil
    have hplain : ircMask.Plain [c] := fun e he => by
      rw [List.mem_singleton.mp he]
      exact hstar
    refine ⟨⟨pre, u ++ [c], v ++ [d], rfl, by simp, by simp, hu.append hplain, ?_⟩, Iff.rfl⟩
    exact Glob.denotes_append_iff.mpr ⟨v, [d], rfl, huv, hone⟩

theorem LoopInv.resume_iff {mask m n ma na : CStr} {c d : Char}
    (hinv : LoopInv mask (c :: m) (d :: n) (some (ma, na))) (hc : c ≠ '*')
    (hok : maskCharOk c d = false) :
    ircMask.Denotes ('*' :: ma) na ↔ ircMask.Denotes ('*' :: ma) na.tail := by
  obtain ⟨pre, u, v, -, rfl, rfl, hu, huv⟩ := hinv
  have hnot : ¬ ircMask.Denotes (u ++ c :: m) (v ++ d :: n) := by
    intro h
    obtain ⟨x, y, hxy, hx, hy⟩ := Glob.denotes_append_iff.mp h
    have hlen : v.length = x.length := by rw [hu.length_eq huv, hu.length_eq hx]
    obtain ⟨-, rfl⟩ := append_inj hxy hlen
    have := ((Glob.denotes_one_cons_iff (isStar_eq_false hc)).mp hy).1
    simp [ircMask, hok] at this
  cases v with
  | nil =>
    rw [nil_append, tail_cons, Glob.denotes_star_cons_iff isStar_star]
    exact or_iff_right hnot
  | cons e v =>
    rw [cons_append, tail_cons, Glob.denotes_star_cons_iff isStar_star]
    exact or_iff_right hnot

theorem LoopInv.not_goal_nil {mask m : CStr} {c : Char} {back : Option (CStr × CStr)}
    (hinv : LoopInv mask (c :: m) [] back) (hc : c ≠ '*') : ¬ LoopGoal (c :: m) [] back := by
  have hstar : ircMask.isStar c = false := isStar_eq_false hc
  have hnil : ¬ ircMask.Denotes (c :: m) [] := by
    rw [Glob.denotes_one_iff hstar]
    rintro ⟨a, t, h, -⟩
    simp at h
  cases back with
  | none => exact hnil
  | some b =>
    obtain ⟨ma, na⟩ := b
    obtain ⟨pre, u, v, -, rfl, rfl, hu, huv⟩ := hinv
    intro h
    obtain ⟨y, hy, hden⟩ := Glob.exists_suffix_of_denotes_star isStar_star hu huv h
    rw [List.suffix_nil.mp hy] at hden
    exact hnil hden

theorem LoopInv.open_star_iff {mask n ma na : CStr} {d : Char}
    (hinv : LoopInv mask [] (d :: n) (some (ma, na))) :
    ircMask.Denotes ('*' :: ma) na ↔
      endsInOpenStar mask = true ∨ ircMask.Denotes ('*' :: ma) na.tail := by
  obtain ⟨pre, u, v, rfl, rfl, rfl, hu, huv⟩ := hinv
  have hlen := hu.length_eq huv
  rw [append_nil, endsInOpenStar_iff hu]
  obtain ⟨e, t, het⟩ : ∃ e t, v ++ d :: n = e :: t := by cases v <;> exact ⟨_, _, rfl⟩
  have hlt : u.length < (e :: t).length := by
    rw [← het, length_append, length_cons]
    omega
  rw [het, tail_cons, Glob.denotes_star_cons_of_lt isStar_star hu hlt]
  refine (or_iff_right_of_imp fun hany => ?_).symm
  rw [length_cons] at hlt
  exact denotes_star_of_all_any hany (by omega)

theorem matchLoop_iff {mask : CStr} {bound fuel : Nat} {m n : CStr} {back : Option (CStr × CStr)}
    (hinv : LoopInv mask m n back) (hb : LoopBounded bound n back)
    (hfuel : loopMeasure bound n back < fuel) :
    matchLoop mask fuel m n back = true ↔ LoopGoal m n back := by
  induction fuel generalizing m n back with
  | zero => omega
  | succ fuel ih =>
    obtain ⟨m', back', henter⟩ : ∃ m' back', enterStar m n back = (m', back') := ⟨_, _, rfl⟩
    obtain ⟨hinv', hgoal, hhead⟩ := enterStar_spec hinv henter
    obtain ⟨hb', hle⟩ := enterStar_bounded hb henter
    rw [← hgoal]
    unfold matchLoop
    rw [henter]
    cases m' with
    | nil =>
      cases back' with
      | none => simp [LoopGoal]
      | some b =>
        obtain ⟨ma, na⟩ := b
        cases n with
        | nil =>
          obtain ⟨pre, u, v, -, rfl, rfl, -, huv⟩ := hinv'
          simp only [isEmpty_nil, if_true, true_iff]
          exact .star [] isStar_star (by simpa using huv)
        | cons d n =>
          simp only [isEmpty_cons, Bool.false_eq_true, if_false]
          rw [LoopGoal, hinv'.open_star_iff]
          obtain ⟨e, t, rfl⟩ : ∃ e t, na = e :: t := by
            cases na with
            | nil => simp [LoopBounded] at hb'
            | cons e t => exact ⟨e, t, rfl⟩
          obtain ⟨hi, hb'', hm⟩ := resume_spec hinv' hb'
          cases hopen : endsInOpenStar mask with
          | true => simp
          | false => simpa [LoopGoal] using ih hi hb'' (by omega)
    | cons c m' =>
      have hc : c ≠ '*' := fun h => hhead (by simp [h])
      cases n with
      | nil =>
        simp only [skipStars_isEmpty_eq_false hc, Bool.false_eq_true, false_iff]
        exact hinv'.not_goal_nil hc
      | cons d n =>
        cases hok : maskCharOk c d with
        | true =>
          obtain ⟨hi, hg⟩ := hinv'.step hc hok
          simp only [hok, if_true]
          rw [← hg]
          obtain ⟨hb'', hm⟩ := step_bounded hb'
          exact ih hi hb'' (by omega)
        | false =>
          simp only [hok, Bool.false_eq_true, if_false]
          cases back' with
          | none =>
            rw [LoopGoal, Glob.denotes_one_cons_iff (isStar_eq_false hc)]
            simp [show ircMask.accept c d = false from hok]
          | some b =>
            obtain ⟨ma, na⟩ := b
            rw [LoopGoal, hinv'.resume_iff hc hok]
            obtain ⟨e, t, rfl⟩ : ∃ e t, na = e :: t := by
              cases na with
              | nil => simp [LoopBounded] at hb'
              | cons e t => exact ⟨e, t, rfl⟩
            obtain ⟨hi, hb'', hm⟩ := resume_spec hinv' hb'
            have hres := ih hi hb'' (by omega)
            exact hres

theorem matchMask_iff (mask name : CStr) :
    matchMask mask name = true ↔ ircMask.Denotes mask name := by
  have hb : LoopBounded name.length name none := le_refl _
  refine matchLoop_iff ⟨[], rfl⟩ hb ?_
  simp only [loopMeasure]
  rw [Nat.add_mul]
  omega

end Ircd
