import Ircd.Match

/-!
The language of a mask, and that `match` ends and decides it.

`InMask` says what the wildcards mean. `matchRun` is the loop of `match` with its rounds
counted, so that a loop that goes on is told apart from one that answers no.
-/

namespace Ircd

/-- The name is in the language of the mask: `*` is any string, `?` any character, `#` a digit
or a `#`, and every other character stands for those equal to it under `ToLower`. -/
inductive InMask : CStr → CStr → Prop where
  | nil : InMask [] []
  | star {m n : CStr} (u : CStr) : InMask m n → InMask ('*' :: m) (u ++ n)
  | any {m n : CStr} (d : Char) : InMask m n → InMask ('?' :: m) (d :: n)
  | digit {m n : CStr} {d : Char} : isDigit d = true ∨ d = '#' → InMask m n →
      InMask ('#' :: m) (d :: n)
  | char {m n : CStr} {c d : Char} : c ≠ '*' → c ≠ '?' → c ≠ '#' → toLower c = toLower d →
      InMask m n → InMask (c :: m) (d :: n)

/-- The loop of `match`, `none` where the rounds run out. -/
def matchRun (mask : CStr) : Nat → CStr → CStr → Option (CStr × CStr) → Option Bool
  | 0, _, _, _ => none
  | fuel + 1, m, n, back =>
    match enterStar m n back with
    | ([], none) => some n.isEmpty
    | ([], some (ma, na)) =>
        if n.isEmpty then some true
        else if endsInOpenStar mask then some true
        else matchRun mask fuel ma na.tail (some (ma, na.tail))
    | (c :: m, back) =>
      match n with
      | [] => some (skipStars (c :: m)).isEmpty
      | d :: n =>
        if maskCharOk c d then matchRun mask fuel m n back
        else
          match back with
          | none => some false
          | some (ma, na) => matchRun mask fuel ma na.tail (some (ma, na.tail))

theorem toLower_of_lt {c : Char} (h : c.toNat < 0x41) : toLower c = c := by
  unfold toLower
  rw [if_neg]
  omega

theorem eq_of_toLower_eq {c d : Char} (hc : c.toNat < 0x41) (h : toLower c = toLower d) : d =
    c := by
  rw [toLower_of_lt hc] at h
  by_cases hd : 0x41 ≤ d.toNat ∧ d.toNat ≤ 0x5e
  · rw [toLower, if_pos hd] at h
    rw [h, toNat_ofNat (.inl (by omega))] at hc
    omega
  · rw [toLower, if_neg hd] at h
    exact h.symm

theorem maskCharOk_digit {d : Char} : maskCharOk '#' d = true ↔ isDigit d = true ∨ d = '#' := by
  simp only [maskCharOk, Bool.or_eq_true, Bool.and_eq_true, beq_iff_eq]
  constructor
  · rintro ((h | h) | ⟨-, h⟩)
    · exact Or.inr (eq_of_toLower_eq (by decide) h)
    · cases h
    · exact Or.inl h
  · rintro (h | rfl)
    · exact Or.inr ⟨trivial, h⟩
    · exact Or.inl (Or.inl rfl)

theorem maskCharOk_char {c d : Char} (hany : c ≠ '?') (hdigit : c ≠ '#') :
    maskCharOk c d = true ↔ toLower c = toLower d := by
  simp [maskCharOk, hany, hdigit]

theorem denotes_iff_inMask {m n : CStr} : ircMask.Denotes m n ↔ InMask m n := by
  constructor
  · intro h
    induction h with
    | nil => exact .nil
    | star u hk _ ih =>
      obtain rfl := beq_iff_eq.mp hk
      exact .star u ih
    | @one c m d n hk hok _ ih =>
      have hstar : c ≠ '*' := fun h => by simp [h, ircMask] at hk
      by_cases hany : c = '?'
      · subst hany
        exact .any d ih
      · by_cases hdigit : c = '#'
        · subst hdigit
          exact .digit (maskCharOk_digit.mp hok) ih
        · exact .char hstar hany hdigit ((maskCharOk_char hany hdigit).mp hok) ih
  · intro h
    induction h with
    | nil => exact .nil
    | star u _ ih => exact .star u isStar_star ih
    | any d _ ih => exact .one (isStar_eq_false (by decide)) (by simp [ircMask, maskCharOk]) ih
    | digit hd _ ih => exact .one (isStar_eq_false (by decide)) (maskCharOk_digit.mpr hd) ih
    | char hstar hany hdigit heq _ ih =>
      exact .one (isStar_eq_false hstar) ((maskCharOk_char hany hdigit).mpr heq) ih

theorem matchRun_eq {mask : CStr} {bound fuel : Nat} {m n : CStr} {back : Option (CStr × CStr)}
    (hinv : LoopInv mask m n back) (hb : LoopBounded bound n back)
    (hfuel : loopMeasure bound n back < fuel) :
    matchRun mask fuel m n back = some (matchLoop mask fuel m n back) := by
  induction fuel generalizing m n back with
  | zero => omega
  | succ fuel ih =>
    obtain ⟨m', back', henter⟩ : ∃ m' back', enterStar m n back = (m', back') := ⟨_, _, rfl⟩
    obtain ⟨hinv', -, hhead⟩ := enterStar_spec hinv henter
    obtain ⟨hb', hle⟩ := enterStar_bounded hb henter
    have hresume : ∀ ma na, back' = some (ma, na) → n ≠ [] →
        matchRun mask fuel ma na.tail (some (ma, na.tail)) =
          some (matchLoop mask fuel ma na.tail (some (ma, na.tail))) := by
      rintro ma na rfl hn
      cases na with
      | nil => exact absurd (List.length_eq_zero_iff.mp (Nat.le_zero.mp hb'.1)) hn
      | cons e t =>
        obtain ⟨hi, hb'', hm⟩ := resume_spec hinv' hb'
        exact ih hi hb'' (by simp only [List.tail_cons]; omega)
    unfold matchRun matchLoop
    rw [henter]
    cases m' with
    | nil =>
      cases back' with
      | none => rfl
      | some b =>
        obtain ⟨ma, na⟩ := b
        cases n with
        | nil => rfl
        | cons d n =>
          cases hopen : endsInOpenStar mask with
          | true => rfl
          | false => simpa using hresume ma na rfl (List.cons_ne_nil d n)
    | cons c m' =>
      have hc : c ≠ '*' := fun h => hhead (by simp [h])
      cases n with
      | nil => rfl
      | cons d n =>
        cases hok : maskCharOk c d with
        | true =>
          obtain ⟨hi, -⟩ := hinv'.step hc hok
          obtain ⟨hb'', hm⟩ := step_bounded hb'
          simpa [hok] using ih hi hb'' (by omega)
        | false =>
          cases back' with
          | none => simp [hok]
          | some b =>
            obtain ⟨ma, na⟩ := b
            simpa [hok] using hresume ma na rfl (List.cons_ne_nil d n)

/-- `match` ends on every mask and name, after a number of rounds that only the length of the
name bounds, and it answers whether the name is in the language of the mask. -/
theorem match_decides (mask name : CStr) :
    (∀ rounds, (name.length + 1) * (name.length + 2) ≤ rounds →
      matchRun mask rounds mask name none = some (matchMask mask name)) ∧
    (matchMask mask name = true ↔ InMask mask name) := by
  refine ⟨fun rounds hrounds => ?_, (matchMask_iff mask name).trans denotes_iff_inMask⟩
  have hb : LoopBounded name.length name none := le_refl _
  have hmeasure : loopMeasure name.length name none < rounds := by
    simp only [Nat.add_mul] at hrounds
    simp only [loopMeasure]
    omega
  have hinv : LoopInv mask mask name none := ⟨[], rfl⟩
  rw [matchRun_eq hinv hb hmeasure]
  -- both runs of the loop decide the language, so they give the same answer
  refine congrArg some (Bool.eq_iff_iff.mpr ?_)
  exact (matchLoop_iff hinv hb hmeasure).trans (matchMask_iff mask name).symm

end Ircd
