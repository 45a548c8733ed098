import Ircd.MatchLanguage
import Ircd.Lib.GlobSearch
import Mathlib.Data.List.TakeWhile

/-!
Masks with escapes (`match_esc`, `collapse` and `collapse_esc` of `match.c`).

A mask is read as wildcard tokens. `matchEsc_iff` says which language `match_esc` decides,
and `matchEsc_correct_iff` for which masks that is the language of the mask: the test for
`#` is the wrong way round, and an escaped star before the end of the mask is taken for a
star. `collapse_keeps_match` says that collapsing the stars changes neither matcher.
-/

namespace Ircd

open List

/-! ### Tokens -/

/-- What a mask consists of. `lone` is a backslash at the end, which escapes nothing. -/
inductive EscToken where
  | star
  | any
  | digit
  | lit (c : Char)
  | lone
  deriving DecidableEq

namespace EscToken

/-- The token of a character that is not escaped. -/
def ofChar (c : Char) : EscToken :=
  if c = '*' then .star else if c = '?' then .any else if c = '#' then .digit else .lit c

/-- The meaning of the tokens, given what `#` accepts. -/
def alphabet (digits : Char → Bool) : Glob.Alphabet EscToken Char where
  isStar t := t == .star
  accept
    | .star, _ => false
    | .any, _ => true
    | .digit, d => digits d
    | .lit c, d => toLower c == toLower d
    | .lone, _ => false

end EscToken

def escTokens : CStr → List EscToken
  | [] => []
  | c :: m =>
    if c = '\\' then
      match m with
      | [] => [.lone]
      | e :: m => .lit e :: escTokens m
    else .ofChar c :: escTokens m

/-- The language of a mask with escapes: an escaped character stands for itself, and the
others mean what they mean to `match`. No name fits a backslash that escapes nothing. -/
def InEscMask (mask name : CStr) : Prop :=
  (EscToken.alphabet fun d => isDigit d || d == '#').Denotes (escTokens mask) name

/-- The tokens as `match_esc` tests them: `#` is passed by what is not a digit. -/
def codeAlphabet : Glob.Alphabet EscToken Char := EscToken.alphabet fun d => !isDigit d

theorem isStar_iff {digits : Char → Bool} {t : EscToken} :
    (EscToken.alphabet digits).isStar t = true ↔ t = .star := beq_iff_eq

@[simp] theorem escTokens_nil : escTokens [] = [] := by
  rw [escTokens]

@[simp] theorem escTokens_lone : escTokens ['\\'] = [.lone] := by
  rw [escTokens]
  rfl

@[simp] theorem escTokens_escaped (e : Char) (m : CStr) :
    escTokens ('\\' :: e :: m) = .lit e :: escTokens m := by
  rw [escTokens]
  rfl

theorem escTokens_cons {c : Char} (hc : c ≠ '\\') (m : CStr) :
    escTokens (c :: m) = .ofChar c :: escTokens m := by
  rw [escTokens.eq_def]
  simp [hc]

theorem escTokens_star (m : CStr) : escTokens ('*' :: m) = .star :: escTokens m :=
  escTokens_cons (by decide) m

/-! ### The end of the mask -/

/-- The tokens end in a star, escaped or not, followed by `?` only: what the test at the end
of the mask takes for an open star. -/
def opensRest : List EscToken → Bool
  | [] => false
  | t :: ts => opensRest ts || ((t == .star || t == .lit '*') && ts.all (· == .any))

theorem endsInOpenStar_cons (c : Char) (m : CStr) :
    endsInOpenStar (c :: m) = (endsInOpenStar m || (c == '*' && m.all (· == '?'))) := by
  have key : ∀ w : CStr, (((w ++ [c]).dropWhile (· == '?')).head? == some '*') =
      ((w.dropWhile (· == '?')).head? == some '*' || (c == '*' && w.all (· == '?'))) := by
    intro w
    induction w with
    | nil =>
      by_cases hc : c = '?'
      · subst hc
        rfl
      · simp [hc]
    | cons d w ih =>
      by_cases hd : d = '?'
      · simpa [hd] using ih
      · simp [hd]
  simp only [endsInOpenStar, reverse_cons, key, all_reverse]

theorem all_any_escTokens (m : CStr) : (escTokens m).all (· == .any) = m.all (· == '?') := by
  fun_induction escTokens m with
  | case1 => rfl
  | case2 => rfl
  | case3 e m ih => rfl
  | case4 c m hc ih =>
    simp only [all_cons, ih, EscToken.ofChar]
    congr 1
    split_ifs with h1 h2 h3
    · simp [h1]
    · simp [h2]
    · simp [h3]
    · simp [h2]

theorem lit_beq_star (e : Char) : (EscToken.lit e == .star || EscToken.lit e == .lit '*') =
    (e == '*') := by
  by_cases h : e = '*'
  · subst h
    rfl
  · have hlit : EscToken.lit e ≠ .lit '*' := fun hl => h (EscToken.lit.inj hl)
    rw [beq_false_of_ne hlit, beq_false_of_ne h]
    rfl

theorem ofChar_beq_star (c : Char) :
    (EscToken.ofChar c == .star || EscToken.ofChar c == .lit '*') = (c == '*') := by
  by_cases h : c = '*'
  · subst h
    rfl
  · rw [beq_false_of_ne h]
    unfold EscToken.ofChar
    rw [if_neg h]
    split_ifs
    · rfl
    · rfl
    · rw [lit_beq_star, beq_false_of_ne h]

theorem opensRest_escTokens (m : CStr) : opensRest (escTokens m) = endsInOpenStar m := by
  fun_induction escTokens m with
  | case1 => rfl
  | case2 => rfl
  | case3 e m ih => simp [opensRest, endsInOpenStar_cons, ih, all_any_escTokens, lit_beq_star]
  | case4 c m hc ih =>
    rw [opensRest, ih, endsInOpenStar_cons, all_any_escTokens, ofChar_beq_star]

/-! ### The loop of `match_esc` is a search -/

theorem ofChar_ne_star {c : Char} (hc : c ≠ '*') : EscToken.ofChar c ≠ .star := by
  unfold EscToken.ofChar
  rw [if_neg hc]
  split_ifs
  · nofun
  · nofun
  · nofun

theorem escTokens_head {c : Char} (hc : c ≠ '*') (m : CStr) :
    ∃ t ts, escTokens (c :: m) = t :: ts ∧ codeAlphabet.isStar t = false := by
  have hstar : ∀ t, t ≠ EscToken.star → codeAlphabet.isStar t = false :=
    fun t ht => Bool.eq_false_iff.mpr fun h => ht (isStar_iff.mp h)
  by_cases hb : c = '\\'
  · subst hb
    cases m with
    | nil => exact ⟨_, _, escTokens_lone, rfl⟩
    | cons e m => exact ⟨_, _, escTokens_escaped e m, rfl⟩
  · exact ⟨_, _, escTokens_cons hb m, hstar _ (ofChar_ne_star hc)⟩

theorem escTokens_skipStars (m : CStr) :
    escTokens (skipStars m) = codeAlphabet.dropStars (escTokens m) := by
  induction m with
  | nil => rfl
  | cons c m ih =>
    by_cases hc : c = '*'
    · subst hc
      rw [escTokens_star]
      exact ih
    · obtain ⟨t, ts, hts, ht⟩ := escTokens_head hc m
      have hskip : skipStars (c :: m) = c :: m := by simp [skipStars, hc]
      rw [hskip, hts]
      simp [Glob.Alphabet.dropStars, ht]

/-- The pointers of the loop as places of the search. -/
def places (back : Option (CStr × CStr)) : Option (List EscToken × CStr) :=
  back.map fun b => (escTokens b.1, b.2)

theorem enter_escTokens (m n : CStr) (back : Option (CStr × CStr)) :
    codeAlphabet.enter (escTokens m) n (places back) =
      (escTokens (enterStar m n back).1, places (enterStar m n back).2) := by
  cases m with
  | nil => rfl
  | cons c m =>
    by_cases hc : c = '*'
    · subst hc
      have henter : enterStar ('*' :: m) n back =
          (skipStars ('*' :: m), some (skipStars ('*' :: m), n)) := if_pos rfl
      rw [henter]
      simp only [places, Option.map_some, escTokens_skipStars]
      rw [escTokens_star]
      rfl
    · obtain ⟨t, ts, hts, ht⟩ := escTokens_head hc m
      have henter : enterStar (c :: m) n back = (c :: m, back) := if_neg (by simpa using hc)
      rw [henter, hts, Glob.Alphabet.enter, if_neg (by simp [ht])]

theorem enterStar_head (m n : CStr) (back : Option (CStr × CStr)) :
    (enterStar m n back).1.head? ≠ some '*' := by
  unfold enterStar
  split
  case isTrue => exact skipStars_head
  case isFalse h => exact h

theorem accept_ofChar {c d : Char} (hc : c ≠ '*') :
    codeAlphabet.accept (.ofChar c) d =
      (!(c != '?' && (c != '#' || isDigit d)) || toLower c == toLower d) := by
  by_cases hany : c = '?'
  · subst hany
    rfl
  by_cases hdigit : c = '#'
  · subst hdigit
    have hlower : isDigit d = true → (toLower '#' == toLower d) = false := by
      intro hd
      refine beq_false_of_ne fun h => ?_
      have := eq_of_toLower_eq (by decide) h
      subst this
      cases hd
    cases hd : isDigit d with
    | true => simp [codeAlphabet, EscToken.alphabet, EscToken.ofChar, hd, hlower hd]
    | false => simp [codeAlphabet, EscToken.alphabet, EscToken.ofChar, hd]
  · simp [codeAlphabet, EscToken.alphabet, EscToken.ofChar, hc, hany, hdigit]

/-- No backslash at the end of the mask is ahead. -/
def NoLone (m : CStr) (back : Option (CStr × CStr)) : Prop :=
  .lone ∉ escTokens m ∧ ∀ ma na, back = some (ma, na) → .lone ∉ escTokens ma

theorem mem_escTokens_skipStars {t : EscToken} {m : CStr} (ht : t ≠ .star) :
    t ∈ escTokens (skipStars m) ↔ t ∈ escTokens m := by
  rw [escTokens_skipStars]
  refine ⟨fun h => (dropWhile_suffix _).mem h, fun h => ?_⟩
  rw [← takeWhile_append_dropWhile (p := codeAlphabet.isStar) (l := escTokens m)] at h
  refine (List.mem_append.mp h).resolve_left fun hleft => ht ?_
  exact isStar_iff.mp (mem_takeWhile_imp hleft)

theorem NoLone.enter {m n : CStr} {back : Option (CStr × CStr)} (h : NoLone m back) :
    NoLone (enterStar m n back).1 (enterStar m n back).2 := by
  unfold enterStar
  split
  case isTrue =>
    have hskip : EscToken.lone ∉ escTokens (skipStars m) :=
      fun hmem => h.1 ((mem_escTokens_skipStars (t := .lone) (by simp)).mp hmem)
    refine ⟨hskip, ?_⟩
    rintro ma na hback
    obtain ⟨rfl, -⟩ := Prod.mk.inj (Option.some.inj hback)
    exact hskip
  case isFalse => exact h

theorem matchEscLoop_eq {mask : CStr} {fuel : Nat} {m n : CStr} {back : Option (CStr × CStr)}
    (h : NoLone m back) :
    matchEscLoop mask fuel m n back =
      (codeAlphabet.search (endsInOpenStar mask) fuel (escTokens m) n (places back)).getD
        false := by
  induction fuel generalizing m n back with
  | zero => rfl
  | succ fuel ih =>
    obtain ⟨m', back', henter⟩ : ∃ m' back', enterStar m n back = (m', back') := ⟨_, _, rfl⟩
    have hnext := h.enter (n := n)
    have hhead := enterStar_head m n back
    have hsearch := enter_escTokens m n back
    rw [henter] at hnext hhead hsearch
    have hresume : ∀ ma na, back' = some (ma, na) →
        matchEscLoop mask fuel ma na.tail (some (ma, na.tail)) =
          (codeAlphabet.search (endsInOpenStar mask) fuel (escTokens ma) na.tail
            (some (escTokens ma, na.tail))).getD false := by
      intro ma na hback
      have hma := hnext.2 ma na hback
      refine ih ⟨hma, ?_⟩
      rintro ma' na' heq
      obtain ⟨rfl, -⟩ := Prod.mk.inj (Option.some.inj heq)
      exact hma
    unfold matchEscLoop Glob.Alphabet.search
    rw [henter, hsearch]
    cases m' with
    | nil =>
      cases back' with
      | none => rfl
      | some b =>
        obtain ⟨ma, na⟩ := b
        cases n with
        | nil => rfl
        | cons d n =>
          cases hopen : endsInOpenStar mask with
          | true => rfl
          | false => simpa [places, hopen] using hresume ma na rfl
    | cons c m' =>
      have hc : c ≠ '*' := by simpa using hhead
      cases n with
      | nil =>
        obtain ⟨t, ts, hts, -⟩ := escTokens_head hc m'
        rw [hts]
        exact skipStars_isEmpty_eq_false hc
      | cons d n =>
        by_cases hb : c = '\\'
        · subst hb
          cases m' with
          | nil => exact absurd (by simp) hnext.1
          | cons e m' =>
            have haccept : codeAlphabet.accept (.lit e) d = (toLower e == toLower d) := rfl
            simp only [escTokens_escaped, haccept]
            by_cases heq : toLower e = toLower d
            · have hrest : NoLone m' back' :=
                ⟨fun hmem => hnext.1 (escTokens_escaped e m' ▸ mem_cons_of_mem _ hmem),
                  hnext.2⟩
              simpa [heq] using ih hrest
            · cases back' with
              | none => simp [heq, places]
              | some b => simpa [heq, places] using hresume b.1 b.2 rfl
        · have hrest : NoLone m' back' :=
            ⟨fun hmem => hnext.1 (escTokens_cons hb m' ▸ mem_cons_of_mem _ hmem),
              hnext.2⟩
          simp only [escTokens_cons hb, accept_ofChar hc]
          cases htest : (c != '?' && (c != '#' || isDigit d)) with
          | false => simpa [htest] using ih hrest
          | true =>
            by_cases heq : toLower c = toLower d
            · simpa [hb, heq] using ih hrest
            · cases back' with
              | none => simp [hb, heq, places]
              | some b => simpa [hb, heq, places] using hresume b.1 b.2 rfl

theorem matchEscLoop_lone {mask : CStr} {fuel : Nat} {m n : CStr} {back : Option (CStr × CStr)}
    (hm : .lone ∈ escTokens m) (hback : ∀ ma na, back = some (ma, na) → .lone ∈ escTokens ma) :
    matchEscLoop mask fuel m n back = false := by
  induction fuel generalizing m n back with
  | zero => rfl
  | succ fuel ih =>
    obtain ⟨m', back', henter⟩ : ∃ m' back', enterStar m n back = (m', back') := ⟨_, _, rfl⟩
    have hhead := enterStar_head m n back
    have hnext : .lone ∈ escTokens m' ∧ ∀ ma na, back' = some (ma, na) →
        .lone ∈ escTokens ma := by
      have hskip := (mem_escTokens_skipStars (m := m) (t := .lone) (by simp)).mpr hm
      unfold enterStar at henter
      split at henter
      · obtain ⟨rfl, rfl⟩ := Prod.mk.inj henter
        refine ⟨hskip, fun ma na h => ?_⟩
        obtain ⟨rfl, -⟩ := Prod.mk.inj (Option.some.inj h)
        exact hskip
      · obtain ⟨rfl, rfl⟩ := Prod.mk.inj henter
        exact ⟨hm, hback⟩
    have hresume : ∀ ma na, back' = some (ma, na) →
        matchEscLoop mask fuel ma na.tail (some (ma, na.tail)) = false := by
      intro ma na h
      refine ih (hnext.2 ma na h) ?_
      rintro ma' na' heq
      obtain ⟨rfl, -⟩ := Prod.mk.inj (Option.some.inj heq)
      exact hnext.2 ma na h
    unfold matchEscLoop
    rw [henter] at hhead ⊢
    cases m' with
    | nil => exact absurd hnext.1 (by simp)
    | cons c m' =>
      have hc : c ≠ '*' := by simpa using hhead
      cases n with
      | nil => exact skipStars_isEmpty_eq_false hc
      | cons d n =>
        by_cases hb : c = '\\'
        · subst hb
          cases m' with
          | nil => rfl
          | cons e m' =>
            have hrest : .lone ∈ escTokens m' := by simpa using hnext.1
            by_cases heq : toLower e = toLower d
            · simpa [heq] using ih hrest hnext.2
            · cases back' with
              | none => simp [heq]
              | some b => simpa [heq] using hresume b.1 b.2 rfl
        · have hrest : .lone ∈ escTokens m' := by
            have hmem := hnext.1
            rw [escTokens_cons hb] at hmem
            refine (List.mem_cons.mp hmem).resolve_left fun h => ?_
            unfold EscToken.ofChar at h
            split_ifs at h
          cases htest : (c != '?' && (c != '#' || isDigit d)) with
          | false => simpa [htest] using ih hrest hnext.2
          | true =>
            by_cases heq : toLower c = toLower d
            · simpa [htest, hb, heq] using ih hrest hnext.2
            · cases back' with
              | none => simp [htest, hb, heq]
              | some b => simpa [htest, hb, heq] using hresume b.1 b.2 rfl

theorem matchEsc_iff (mask name : CStr) :
    matchEsc mask name = true ↔
      codeAlphabet.Denotes (escTokens mask ++ Glob.restOf .star
        (opensRest (escTokens mask) && (escTokens mask).any codeAlphabet.isStar)) name := by
  have hstart : ∀ P : CStr → Prop, ∀ ma na, (none : Option (CStr × CStr)) = some (ma, na) → P ma :=
    fun _ _ _ h => absurd h (by simp)
  by_cases hlone : .lone ∈ escTokens mask
  · refine iff_of_false ?_ ?_
    · simp [matchEsc, matchEscLoop_lone hlone (hstart _)]
    · exact Glob.not_denotes_of_mem (mem_append_left _ hlone) rfl fun _ => rfl
  · obtain ⟨b, hb, hiff⟩ := Glob.search_iff (A := codeAlphabet) (endsInOpenStar mask)
        (escTokens mask)
      name (show codeAlphabet.isStar .star = true from rfl) (Nat.le_refl _)
    have hloop : matchEsc mask name = b := by
      rw [matchEsc, matchEscLoop_eq ⟨hlone, hstart _⟩]
      exact congrArg (Option.getD · false) hb
    rw [hloop, hiff, opensRest_escTokens]

/-! ### Where `match_esc` is right -/

/-- The tokens end in an escaped star followed by `?` only. -/
def endsInEscapedStar : List EscToken → Bool
  | [] => false
  | t :: ts => endsInEscapedStar ts || (t == .lit '*' && ts.all (· == .any))

theorem endsInEscapedStar_iff {ts : List EscToken} :
    endsInEscapedStar ts = true ↔ ∃ pre post, ts = pre ++ .lit '*' :: post ∧ ∀ t ∈ post,
      t = .any := by
  induction ts with
  | nil => simp [endsInEscapedStar]
  | cons t ts ih =>
    rw [endsInEscapedStar, Bool.or_eq_true, ih]
    constructor
    · rintro (⟨pre, post, rfl, hpost⟩ | h)
      · exact ⟨t :: pre, post, rfl, hpost⟩
      · obtain ⟨ht, hall⟩ := Bool.and_eq_true_iff.mp h
        obtain rfl := beq_iff_eq.mp ht
        exact ⟨[], ts, rfl, fun e he => beq_iff_eq.mp (List.all_eq_true.mp hall e he)⟩
    · rintro ⟨pre, post, heq, hpost⟩
      cases pre with
      | nil =>
        obtain ⟨rfl, rfl⟩ := List.cons.inj heq
        exact Or.inr (by simpa using hpost)
      | cons e pre =>
        obtain ⟨-, rfl⟩ := List.cons.inj heq
        exact Or.inl ⟨pre, post, rfl, hpost⟩

theorem opensRest_cases {ts : List EscToken} (h : opensRest ts = true) :
    endsInEscapedStar ts = true ∨
      ∃ pre post, ts = pre ++ .star :: post ∧ ∀ t ∈ post, t = EscToken.any := by
  induction ts with
  | nil => cases h
  | cons t ts ih =>
    rw [opensRest, Bool.or_eq_true] at h
    rw [endsInEscapedStar, Bool.or_eq_true]
    rcases h with h | h
    · rcases ih h with hesc | ⟨pre, post, rfl, hpost⟩
      · exact Or.inl (Or.inl hesc)
      · exact Or.inr ⟨t :: pre, post, rfl, hpost⟩
    · obtain ⟨ht, hall⟩ := Bool.and_eq_true_iff.mp h
      rcases Bool.or_eq_true_iff.mp ht with ht | ht
      · obtain rfl := beq_iff_eq.mp ht
        exact Or.inr ⟨[], ts, rfl, fun e he => beq_iff_eq.mp (List.all_eq_true.mp hall e he)⟩
      · exact Or.inl (Or.inr (Bool.and_eq_true_iff.mpr ⟨ht, hall⟩))

theorem opensRest_of_escaped {ts : List EscToken} (h : endsInEscapedStar ts = true) :
    opensRest ts = true := by
  induction ts with
  | nil => cases h
  | cons t ts ih =>
    rw [endsInEscapedStar, Bool.or_eq_true] at h
    rw [opensRest, Bool.or_eq_true]
    rcases h with h | h
    · exact Or.inl (ih h)
    · obtain ⟨ht, hall⟩ := Bool.and_eq_true_iff.mp h
      exact Or.inr (Bool.and_eq_true_iff.mpr ⟨Bool.or_eq_true_iff.mpr (Or.inr ht), hall⟩)

/-- The mask is one that `match_esc` reads right: it ends in a backslash that escapes nothing,
or it has no `#` that is a wildcard and does not, behind a star, end in an escaped star
followed by `?` only. -/
def EscReadable (mask : CStr) : Prop :=
  .lone ∈ escTokens mask ∨
    .digit ∉ escTokens mask ∧
      ¬ (.star ∈ escTokens mask ∧ endsInEscapedStar (escTokens mask) = true)

theorem any_isStar_iff {digits : Char → Bool} {ts : List EscToken} :
    ts.any (EscToken.alphabet digits).isStar = true ↔ .star ∈ ts := by
  rw [any_eq_true]
  constructor
  · rintro ⟨t, ht, hstar⟩
    obtain rfl := isStar_iff.mp hstar
    exact ht
  · intro h
    exact ⟨.star, h, rfl⟩

theorem EscReadable.iff_language {mask : CStr} (h : EscReadable mask) (name : CStr) :
    matchEsc mask name = true ↔ InEscMask mask name := by
  rw [matchEsc_iff, InEscMask]
  rcases h with hlone | ⟨hdigit, hend⟩
  · exact iff_of_false (Glob.not_denotes_of_mem (mem_append_left _ hlone) rfl fun _ => rfl)
      (Glob.not_denotes_of_mem hlone rfl fun _ => rfl)
  · have hagree : codeAlphabet.Denotes (escTokens mask) name ↔
        (EscToken.alphabet fun d => isDigit d || d == '#').Denotes (escTokens mask) name := by
      refine Glob.denotes_congr (fun _ _ => rfl) fun t ht a => ?_
      cases t with
      | digit => exact absurd ht hdigit
      | _ => rfl
    rw [← hagree]
    cases hrest : opensRest (escTokens mask) && (escTokens mask).any codeAlphabet.isStar with
    | false => simp [Glob.restOf]
    | true =>
      obtain ⟨hopen, hany⟩ := Bool.and_eq_true_iff.mp hrest
      rcases opensRest_cases hopen with hesc | ⟨pre, post, heq, hpost⟩
      · exact absurd ⟨any_isStar_iff.mp hany, hesc⟩ hend
      · rw [heq]
        refine Glob.denotes_open_star_iff rfl rfl ?_ ?_
        · intro t ht
          rw [hpost t ht]
          rfl
        · intro t ht a
          rw [hpost t ht]
          rfl

/-- A character that the token passes, to a reader of the mask and to `match_esc` alike, unless
the token is a `#`. -/
def EscToken.sample : EscToken → Char
  | .lit c => c
  | _ => 'a'

theorem denotes_samples {digits : Char → Bool} {ts : List EscToken} (hlone : .lone ∉ ts)
    (hdigit : .digit ∈ ts → digits 'a' = true) :
    (EscToken.alphabet digits).Denotes ts
      ((ts.filter (!(EscToken.alphabet digits).isStar ·)).map EscToken.sample) := by
  refine Glob.denotes_of_forall₂ ?_
  rw [List.forall₂_map_right_iff, List.forall₂_same]
  intro t ht
  obtain ⟨hmem, hstar⟩ := List.mem_filter.mp ht
  cases t with
  | star => cases hstar
  | any => rfl
  | digit => exact hdigit hmem
  | lit c => exact beq_self_eq_true _
  | lone => exact absurd hmem hlone

theorem digit_not_mem_of_iff {mask : CStr} (hlone : .lone ∉ escTokens mask)
    (h : ∀ name, matchEsc mask name = true ↔ InEscMask mask name) : .digit ∉ escTokens mask := by
  intro hdigit
  have hcode : codeAlphabet.Denotes (escTokens mask) _ := denotes_samples hlone fun _ => rfl
  have hlang := (h _).mp ((matchEsc_iff mask _).mpr (Glob.denotes_restOf _ hcode rfl))
  have htests := Glob.forall₂_of_denotes hlang (by rw [length_map]; exact Nat.le_refl _)
  rw [List.forall₂_map_right_iff] at htests
  have hpass := List.forall₂_same.mp htests .digit (List.mem_filter.mpr ⟨hdigit, rfl⟩)
  cases hpass

theorem not_endsInEscapedStar_of_iff {mask : CStr} (hlone : .lone ∉ escTokens mask)
    (h : ∀ name, matchEsc mask name = true ↔ InEscMask mask name) :
    ¬ (.star ∈ escTokens mask ∧ endsInEscapedStar (escTokens mask) = true) := by
  rintro ⟨hstar, hesc⟩
  obtain ⟨pre, post, heq, hpost⟩ := endsInEscapedStar_iff.mp hesc
  have hsamples : codeAlphabet.Denotes (escTokens mask) _ := denotes_samples hlone fun _ => rfl
  have hcode := Glob.denotes_append_iff.mpr ⟨_, ['a'], rfl, hsamples,
    (Glob.denotes_star_iff (k := EscToken.star) (p := []) rfl).mpr ⟨['a'], [], rfl, .nil⟩⟩
  have hopen : (opensRest (escTokens mask) && (escTokens mask).any codeAlphabet.isStar) = true := by
    rw [opensRest_of_escaped hesc, Bool.true_and]
    exact any_isStar_iff.mpr hstar
  have hlang := (h _).mp ((matchEsc_iff mask _).mpr (by rw [hopen]; exact hcode))
  -- the last characters of that name all are letters, and the first of them stands at the star
  have hplain : (EscToken.alphabet fun d => isDigit d || d == '#').Plain (.lit '*' :: post) := by
    intro t ht
    rcases List.mem_cons.mp ht with rfl | ht
    · rfl
    · rw [hpost t ht]
      rfl
  have hfilter : post.filter (!(EscToken.alphabet fun d => !isDigit d).isStar ·) = post := by
    refine List.filter_eq_self.mpr fun t ht => ?_
    rw [hpost t ht]
    rfl
  rw [InEscMask, heq] at hlang
  obtain ⟨x, y, hxy, -, hy⟩ := Glob.denotes_append_iff.mp hlang
  have hlen := hplain.length_eq hy
  have hname : ∃ w, x ++ y = (w ++ ['*']) ++ (post.map EscToken.sample ++ ['a']) := by
    refine ⟨(pre.filter (!(EscToken.alphabet fun d => !isDigit d).isStar ·)).map EscToken.sample,
      ?_⟩
    rw [← hxy, filter_append, filter_cons, hfilter]
    simp [EscToken.alphabet, EscToken.sample]
  obtain ⟨w, hw⟩ := hname
  obtain ⟨-, rfl⟩ := append_inj' hw (by simp [hlen])
  obtain ⟨e, t, het⟩ : ∃ e t, post.map EscToken.sample ++ ['a'] = e :: t :=
    exists_cons_of_ne_nil (by simp)
  have he : e = 'a' := by
    have hmem : e ∈ post.map EscToken.sample ++ ['a'] := het ▸ mem_cons_self
    rcases List.mem_append.mp hmem with hmem | hmem
    · obtain ⟨t, ht, rfl⟩ := List.mem_map.mp hmem
      rw [hpost t ht]
      rfl
    · exact List.mem_singleton.mp hmem
  rw [het, he] at hy
  have hpass := ((Glob.denotes_one_cons_iff rfl).mp hy).1
  exact absurd hpass (by decide)

theorem inEscMask_iff_of_no_escape {mask : CStr} (h : '\\' ∉ mask) (name : CStr) :
    InEscMask mask name ↔ matchMask mask name = true := by
  have htokens : escTokens mask = mask.map EscToken.ofChar := by
    induction mask with
    | nil => rfl
    | cons c m ih =>
      rw [mem_cons, not_or] at h
      rw [escTokens_cons (Ne.symm h.1), ih h.2, map_cons]
  rw [matchMask_iff, InEscMask, htokens]
  refine Glob.denotes_map_iff EscToken.ofChar ?_ ?_
  · intro c
    by_cases hc : c = '*'
    · subst hc
      rfl
    · rw [isStar_eq_false hc]
      exact Bool.eq_false_iff.mpr fun hstar => ofChar_ne_star hc (isStar_iff.mp hstar)
  · intro c hc d
    have hstar : c ≠ '*' := fun heq => by simp [heq, ircMask] at hc
    by_cases hany : c = '?'
    · subst hany
      exact Bool.eq_iff_iff.mpr (by simp [EscToken.alphabet, EscToken.ofChar, ircMask, maskCharOk])
    by_cases hdigit : c = '#'
    · subst hdigit
      refine Bool.eq_iff_iff.mpr (Iff.trans ?_ maskCharOk_digit.symm)
      simp [EscToken.alphabet, EscToken.ofChar]
    · refine Bool.eq_iff_iff.mpr (Iff.trans ?_ (maskCharOk_char hany hdigit).symm)
      simp [EscToken.alphabet, EscToken.ofChar, hstar, hany, hdigit]

/-- For which masks `match_esc` decides the language of the mask, and so agrees with `match`
where nothing is escaped. -/
theorem matchEsc_correct_iff (mask : CStr) :
    ((∀ name, matchEsc mask name = true ↔ InEscMask mask name) ∧
      ('\\' ∉ mask → ∀ name, matchEsc mask name = matchMask mask name)) ↔ EscReadable mask := by
  constructor
  · rintro ⟨h, -⟩
    by_cases hlone : .lone ∈ escTokens mask
    · exact Or.inl hlone
    · exact Or.inr ⟨digit_not_mem_of_iff hlone h, not_endsInEscapedStar_of_iff hlone h⟩
  · intro h
    refine ⟨h.iff_language, fun hno name => Bool.eq_iff_iff.mpr ?_⟩
    rw [h.iff_language name, inEscMask_iff_of_no_escape hno name]

/-- `#` does not match `1`, and `*\*` matches `x*b`. -/
theorem matchEsc_wrong :
    ¬ ((matchEsc "#".toList "1".toList = true ↔ InEscMask "#".toList "1".toList) ∧
      matchEsc "#".toList "1".toList = matchMask "#".toList "1".toList) ∧
    ¬ (matchEsc "*\\*".toList "x*b".toList = true ↔ InEscMask "*\\*".toList "x*b".toList) := by
  constructor
  · rintro ⟨-, h⟩
    revert h
    decide
  · intro h
    have hin : (EscToken.alphabet fun d => isDigit d || d == '#').Denotes [.star, .lit '*']
        "x*b".toList := h.mp (by decide)
    obtain ⟨u, v, huv, hv⟩ := (Glob.denotes_star_iff (p := [EscToken.lit '*']) rfl).mp hin
    obtain ⟨d, t, rfl, hd, ht⟩ := (Glob.denotes_one_iff (k := EscToken.lit '*') (p := []) rfl).mp hv
    obtain rfl := Glob.denotes_nil_iff.mp ht
    have hlast := congrArg List.getLast? huv
    rw [getLast?_concat] at hlast
    obtain rfl : 'b' = d := Option.some.inj hlast
    exact absurd hd (by decide)

/-! ### Collapsing stars -/

/-- `collapse_esc`. What is written never overtakes what is read. -/
def collapseEsc : CStr → CStr
  | [] => []
  | c :: p =>
    if c = '\\' then
      match p with
      | [] => [c]
      | e :: p => c :: e :: collapseEsc p
    else if c ≠ '*' then c :: collapseEsc p
    else if p.head? ≠ some '*' then '*' :: collapseEsc p
    else collapseEsc p

theorem collapse_eq_squeeze (m : CStr) : collapse m = ircMask.squeeze m := by
  induction m with
  | nil => rfl
  | cons c m ih =>
    rw [collapse, Glob.squeeze_cons, ih]
    refine if_congr ?_ rfl rfl
    rw [Bool.and_eq_true_iff]
    refine and_congr beq_iff_eq.symm ?_
    cases m with
    | nil => simp
    | cons d m => simp [ircMask]

theorem head_escTokens (m : CStr) :
    (escTokens m).head?.any codeAlphabet.isStar = true ↔ m.head? = some '*' := by
  cases m with
  | nil => simp
  | cons c m =>
    by_cases hc : c = '*'
    · subst hc
      rw [escTokens_star]
      exact iff_of_true rfl rfl
    · obtain ⟨t, ts, hts, ht⟩ := escTokens_head hc m
      rw [hts]
      simp [ht, hc]

theorem escTokens_collapseEsc (m : CStr) :
    escTokens (collapseEsc m) = codeAlphabet.squeeze (escTokens m) := by
  fun_induction collapseEsc m with
  | case1 => rfl
  | case2 => rfl
  | case3 e p ih =>
    rw [escTokens_escaped, escTokens_escaped, Glob.squeeze_cons, ih]
    rfl
  | case4 c p hb hc ih =>
    have hstar : codeAlphabet.isStar (.ofChar c) = false :=
      Bool.eq_false_iff.mpr fun h => ofChar_ne_star hc (isStar_iff.mp h)
    rw [escTokens_cons hb, escTokens_cons hb, Glob.squeeze_cons, ih, hstar]
    rfl
  | case5 c p hb hc hp ih =>
    obtain rfl := Decidable.not_not.mp hc
    rw [escTokens_star, escTokens_star, Glob.squeeze_cons, ih, if_neg]
    intro h
    exact hp ((head_escTokens p).mp (Bool.and_eq_true_iff.mp h).2)
  | case6 c p hb hc hp ih =>
    obtain rfl := Decidable.not_not.mp hc
    rw [escTokens_star, Glob.squeeze_cons, ih, if_pos]
    exact Bool.and_eq_true_iff.mpr ⟨rfl, (head_escTokens p).mpr (Decidable.not_not.mp hp)⟩

theorem collapseEsc_eq_self {m : CStr}
    (h : List.IsChain (fun t u => ¬ (codeAlphabet.isStar t = true ∧ codeAlphabet.isStar u = true))
      (escTokens m)) : collapseEsc m = m := by
  fun_induction collapseEsc m with
  | case1 => rfl
  | case2 => rfl
  | case3 e p ih =>
    rw [escTokens_escaped, isChain_cons] at h
    rw [ih h.2]
  | case4 c p hb hc ih =>
    rw [escTokens_cons hb, isChain_cons] at h
    rw [ih h.2]
  | case5 c p hb hc hp ih =>
    obtain rfl := Decidable.not_not.mp hc
    rw [escTokens_star, isChain_cons] at h
    rw [ih h.2]
  | case6 c p hb hc hp ih =>
    obtain rfl := Decidable.not_not.mp hc
    rw [escTokens_star, isChain_cons] at h
    have hhead := (head_escTokens p).mpr (Decidable.not_not.mp hp)
    cases hts : escTokens p with
    | nil =>
      rw [hts] at hhead
      cases hhead
    | cons t ts =>
      rw [hts] at hhead h
      exact absurd ⟨rfl, hhead⟩ (h.1 t rfl)

theorem length_collapseEsc_le (m : CStr) : (collapseEsc m).length ≤ m.length := by
  fun_induction collapseEsc m with
  | case1 => exact le_refl _
  | case2 => exact le_refl _
  | case3 e p ih => exact Nat.succ_le_succ (Nat.succ_le_succ ih)
  | case4 c p hb hc ih => exact Nat.succ_le_succ ih
  | case5 c p hb hc hp ih => exact Nat.succ_le_succ ih
  | case6 c p hb hc hp ih => exact Nat.le_succ_of_le ih

theorem all_any_squeeze (ts : List EscToken) :
    (codeAlphabet.squeeze ts).all (· == .any) = ts.all (· == .any) := by
  induction ts with
  | nil => rfl
  | cons t ts ih =>
    rw [Glob.squeeze_cons]
    split
    case isTrue h =>
      obtain ⟨ht, -⟩ := Bool.and_eq_true_iff.mp h
      obtain rfl := isStar_iff.mp ht
      rw [ih, all_cons]
      cases ts with
      | nil => simp at h
      | cons u ts =>
        have hu : codeAlphabet.isStar u = true := (Bool.and_eq_true_iff.mp h).2
        obtain rfl := isStar_iff.mp hu
        rfl
    case isFalse => rw [all_cons, all_cons, ih]

theorem opensRest_squeeze (ts : List EscToken) :
    opensRest (codeAlphabet.squeeze ts) = opensRest ts := by
  induction ts with
  | nil => rfl
  | cons t ts ih =>
    rw [Glob.squeeze_cons]
    split
    case isTrue h =>
      rw [ih, opensRest]
      cases ts with
      | nil => simp at h
      | cons u ts =>
        have hu : codeAlphabet.isStar u = true := (Bool.and_eq_true_iff.mp h).2
        obtain rfl := isStar_iff.mp hu
        simp
    case isFalse => rw [opensRest, opensRest, ih, all_any_squeeze]

theorem matchEsc_collapseEsc (m n : CStr) : matchEsc (collapseEsc m) n = matchEsc m n := by
  refine Bool.eq_iff_iff.mpr ?_
  rw [matchEsc_iff, matchEsc_iff, escTokens_collapseEsc, opensRest_squeeze, Glob.any_isStar_squeeze,
    Glob.denotes_append_iff, Glob.denotes_append_iff]
  simp only [Glob.denotes_squeeze_iff]

/-- Collapsing the stars of a mask changes neither matcher, does it once and for all, never
makes the mask longer, and leaves no two neighbouring stars that are not escaped. -/
theorem collapse_keeps_match (m n : CStr) :
    (matchMask (collapse m) n = matchMask m n ∧ matchEsc (collapseEsc m) n = matchEsc m n) ∧
    (collapse (collapse m) = collapse m ∧ collapseEsc (collapseEsc m) = collapseEsc m) ∧
    ((collapse m).length ≤ m.length ∧ (collapseEsc m).length ≤ m.length) ∧
    List.IsChain (fun c d => ¬ (c = '*' ∧ d = '*')) (collapse m) ∧
    List.IsChain (fun t u => ¬ (t = EscToken.star ∧ u = EscToken.star))
      (escTokens (collapseEsc m)) := by
  have hchain : List.IsChain (fun t u => ¬ (codeAlphabet.isStar t = true ∧
      codeAlphabet.isStar u = true))
      (escTokens (collapseEsc m)) := by
    rw [escTokens_collapseEsc]
    exact Glob.isChain_squeeze
  refine ⟨⟨?_, matchEsc_collapseEsc m n⟩, ⟨?_, collapseEsc_eq_self hchain⟩,
    ⟨?_, length_collapseEsc_le m⟩, ?_, ?_⟩
  · refine Bool.eq_iff_iff.mpr ?_
    rw [matchMask_iff, matchMask_iff, collapse_eq_squeeze, Glob.denotes_squeeze_iff]
  · simp only [collapse_eq_squeeze]
    exact Glob.squeeze_eq_self Glob.isChain_squeeze
  · rw [collapse_eq_squeeze]
    exact Glob.length_squeeze_le
  · rw [collapse_eq_squeeze]
    refine Glob.isChain_squeeze.imp fun c d h hcd => h ?_
    rw [hcd.1, hcd.2]
    exact ⟨rfl, rfl⟩
  · refine hchain.imp fun t u h htu => h ?_
    rw [htu.1, htu.2]
    exact ⟨rfl, rfl⟩

end Ircd
