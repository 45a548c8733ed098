import Ircd.Line
import Mathlib.Data.List.DropRight

/-!
`string_to_array` against the parameter grammar of the protocol.

`params` is the grammar, for any number of places. The function follows it up to the
last place: there it takes what lies directly behind the blank that ended the
parameter before, and does not skip the blanks that may follow. `string_to_array_iff`
says which texts are read right.
-/

namespace Ircd

/-- `string_to_array` for any value of `MAXPARA`. The loop runs at least once. -/
def stringToArrayOf (maxpara : Nat) (string : CStr) : List CStr :=
  match string.dropWhile (· == ' ') with
  | [] => []
  | c :: s => toArrayFrom (max 1 (maxpara - 2)) (c :: s)

/-! ### The grammar -/

abbrev skipBlanks (s : CStr) : CStr := s.dropWhile (· == ' ')

/-- The parameters of a text, with the number of places for them: words separated by
blanks, and a last parameter that takes the rest of the line. -/
def params : Nat → CStr → List CStr
  | 0, _ => []
  | room + 1, s =>
    match skipBlanks s with
    | [] => []
    | ':' :: rest => [rest]
    | c :: t =>
      if room = 0 then [c :: t]
      else (c :: t).takeWhile (· != ' ') :: params room ((c :: t).dropWhile (· != ' '))

/-- The text behind the first `n` words, if there are so many and none begins with a
colon. -/
def behindWords : Nat → CStr → CStr
  | 0, s => s
  | n + 1, s =>
    match skipBlanks s with
    | [] => []
    | ':' :: _ => []
    | t => behindWords n (t.dropWhile (· != ' '))

/-- Something is left of the text, behind two blanks or more. -/
def Spaced (s : CStr) : Prop := s.take 2 = [' ', ' '] ∧ skipBlanks s ≠ []

instance (s : CStr) : Decidable (Spaced s) := inferInstanceAs (Decidable (_ ∧ _))

/-- The texts that are read right with that many places. -/
def ReadRight : Nat → CStr → Prop
  | 0, s => skipBlanks s = []
  | 1, s => (skipBlanks s).head? = some ':' ∨ ' ' ∉ skipBlanks s
  | n + 2, s => ¬ Spaced (behindWords (n + 1) s)

/-! ### Blanks and words -/

variable {s t tok p rest : CStr} {c : Char}

@[simp] theorem skipBlanks_blank (s : CStr) : skipBlanks (' ' :: s) = skipBlanks s := by
  simp [skipBlanks]

theorem skipBlanks_of_ne (hc : c ≠ ' ') (s : CStr) : skipBlanks (c :: s) = c :: s := by
  simp [skipBlanks, hc]

theorem head_skipBlanks (h : skipBlanks s = c :: t) : c ≠ ' ' := by
  have hnot := List.head?_dropWhile_not (p := (· == ' ')) (l := s)
  rw [show s.dropWhile (· == ' ') = c :: t from h] at hnot
  simpa using hnot

@[simp] theorem behindWords_nil (n : Nat) : behindWords n [] = [] := by
  cases n <;> rfl

theorem behindWords_word (n : Nat) (hc : c ≠ ' ') (hcolon : c ≠ ':') (s : CStr) :
    behindWords (n + 1) (c :: s) = behindWords n ((c :: s).dropWhile (· != ' ')) := by
  rw [behindWords, skipBlanks_of_ne hc]
  split
  · rename_i h
    cases h
  · rename_i h
    exact absurd (List.cons.inj h).1 hcolon
  · rfl

theorem params_word (room : Nat) (hc : c ≠ ' ') (hcolon : c ≠ ':') (s : CStr) :
    params (room + 2) (c :: s) =
      (c :: s).takeWhile (· != ' ') :: params (room + 1) ((c :: s).dropWhile (· != ' ')) := by
  rw [params, skipBlanks_of_ne hc]
  split
  · rename_i h
    cases h
  · rename_i h
    exact absurd (List.cons.inj h).1 hcolon
  · rename_i h
    rw [if_neg (Nat.succ_ne_zero _), ← h]

theorem params_skipBlanks (room : Nat) (s : CStr) : params room (skipBlanks s) = params room s := by
  cases room with
  | zero => rfl
  | succ room =>
    have hidem : skipBlanks (skipBlanks s) = skipBlanks s := List.dropWhile_idempotent _ s
    rw [params, params, hidem]

theorem behindWords_skipBlanks (n : Nat) (s : CStr) :
    behindWords (n + 1) (skipBlanks s) = behindWords (n + 1) s := by
  have hidem : skipBlanks (skipBlanks s) = skipBlanks s := List.dropWhile_idempotent _ s
  rw [behindWords, behindWords, hidem]

theorem params_of_blank (room : Nat) (h : skipBlanks s = []) : params room s = [] := by
  cases room with
  | zero => rfl
  | succ room => simp [params, h]

theorem params_one (h : skipBlanks s = c :: t) : params 1 s = [stripColon (c :: t)] := by
  rw [params, h]
  split
  · rename_i heq
    cases heq
  · rename_i heq
    rw [heq]
    rfl
  · rename_i hcolon heq
    obtain ⟨rfl, rfl⟩ := List.cons.inj heq
    rw [if_pos rfl, stripColon]
    exact fun rest hrest => hcolon (List.cons.inj hrest).1

theorem takeWhile_of_strchr (h : strchr ' ' s = some (tok, p)) :
    s.takeWhile (· != ' ') = tok ∧ s.dropWhile (· != ' ') = ' ' :: p := by
  obtain ⟨rfl, hnot⟩ := strchr_eq_some h
  have hword : ∀ d ∈ tok, (d != ' ') = true := by
    intro d hd
    have hne : d ≠ ' ' := fun h => hnot (h ▸ hd)
    simp [hne]
  constructor
  · rw [List.takeWhile_append_of_pos hword]
    simp
  · rw [List.dropWhile_append_of_pos hword]
    simp

theorem takeWhile_of_notMem (h : ' ' ∉ s) :
    s.takeWhile (· != ' ') = s ∧ s.dropWhile (· != ' ') = [] := by
  have hword : ∀ d ∈ s, (d != ' ') = true := by
    intro d hd
    have hne : d ≠ ' ' := fun heq => h (heq ▸ hd)
    simp [hne]
  exact ⟨List.takeWhile_eq_self_iff.mpr hword, List.dropWhile_eq_nil_iff.mpr hword⟩

theorem stripColon_eq_iff (h : skipBlanks p = c :: rest) :
    stripColon p = stripColon (c :: rest) ↔ ¬ Spaced (' ' :: p) := by
  have hc := head_skipBlanks h
  cases p with
  | nil => simp [skipBlanks] at h
  | cons d p =>
    by_cases hd : d = ' '
    · subst hd
      have hspaced : Spaced (' ' :: ' ' :: p) := by
        rw [Spaced, skipBlanks_blank, h]
        exact ⟨rfl, by simp⟩
      have hlen : (c :: rest).length ≤ p.length := by
        rw [← h, skipBlanks_blank]
        exact List.length_dropWhile_le _ _
      have hstrip : (stripColon (c :: rest)).length ≤ (c :: rest).length := by
        unfold stripColon
        split <;> simp_all
      simp only [hspaced, not_true, iff_false]
      intro heq
      have hlen' : (stripColon (' ' :: p)).length = p.length + 1 := by
        simp [stripColon]
      rw [heq] at hlen'
      omega
    · have hnot : ¬ Spaced (' ' :: d :: p) := by
        intro hspaced
        simp [Spaced, hd] at hspaced
      rw [skipBlanks_of_ne hd] at h
      rw [h, eq_self_iff_true, true_iff, ← h]
      exact hnot

/-! ### The loop -/

theorem toArrayFrom_short (n : Nat) (hc : c ≠ ' ')
    (hshort : c = ':' ∨ ' ' ∉ c :: s ∨
      ∃ tok p, strchr ' ' (c :: s) = some (tok, p) ∧ skipBlanks p = []) :
    toArrayFrom (n + 1) (c :: s) = params (n + 2) (c :: s) ∧
      ¬ Spaced (behindWords (n + 1) (c :: s)) := by
  have hnil : ¬ Spaced [] := by simp [Spaced]
  by_cases hcolon : c = ':'
  · subst hcolon
    refine ⟨?_, ?_⟩
    · rw [toArrayFrom, params, skipBlanks_of_ne hc]
      rfl
    · rw [behindWords, skipBlanks_of_ne hc]
      exact hnil
  rw [params_word n hc hcolon, behindWords_word n hc hcolon]
  rcases hshort with hc | hword | ⟨tok, p, hcut, hblank⟩
  · exact absurd hc hcolon
  · obtain ⟨htok, hrest⟩ := takeWhile_of_notMem hword
    rw [htok, hrest, behindWords_nil, params_of_blank _ rfl]
    refine ⟨?_, hnil⟩
    rw [toArrayFrom, strchr_eq_none_iff.mpr hword]
    exact fun rest hrest => hcolon (List.cons.inj hrest).1
  · obtain ⟨htok, hrest⟩ := takeWhile_of_strchr hcut
    rw [htok, hrest, params_of_blank _ ((skipBlanks_blank p).trans hblank)]
    constructor
    · have hblank : p.dropWhile (· == ' ') = [] := hblank
      rw [toArrayFrom, hcut]
      · simp only [hblank]
      · exact fun rest hrest => hcolon (List.cons.inj hrest).1
    · cases n with
      | zero => simp [behindWords, Spaced, hblank]
      | succ n => simp [behindWords, hblank, hnil]

theorem long_of_not_short
    (h : ¬ (c = ':' ∨ ' ' ∉ c :: s ∨
      ∃ tok p, strchr ' ' (c :: s) = some (tok, p) ∧ skipBlanks p = [])) :
    ∃ tok p d rest, c ≠ ':' ∧ strchr ' ' (c :: s) = some (tok, p) ∧
      skipBlanks p = d :: rest := by
  simp only [not_or, not_exists, not_and] at h
  obtain ⟨hcolon, hblank, hleft⟩ := h
  cases hcut : strchr ' ' (c :: s) with
  | none => exact absurd (strchr_eq_none_iff.mp hcut) hblank
  | some found =>
    obtain ⟨tok, p⟩ := found
    obtain ⟨d, rest, hrest⟩ := List.exists_cons_of_ne_nil (hleft tok p hcut)
    exact ⟨tok, p, d, rest, hcolon, rfl, hrest⟩

theorem toArrayFrom_cut (n : Nat) {d : Char} (hcolon : c ≠ ':')
    (hcut : strchr ' ' (c :: s) = some (tok, p)) (hrest : skipBlanks p = d :: rest) :
    toArrayFrom (n + 1) (c :: s) =
      tok :: (if n = 0 then [stripColon p] else toArrayFrom n (d :: rest)) := by
  have hrest : p.dropWhile (· == ' ') = d :: rest := hrest
  rw [toArrayFrom, hcut]
  · simp only [hrest]
  · exact fun rest hrest => hcolon (List.cons.inj hrest).1

theorem toArrayFrom_iff (n : Nat) (hc : c ≠ ' ') :
    toArrayFrom (n + 1) (c :: s) = params (n + 2) (c :: s) ↔
      ¬ Spaced (behindWords (n + 1) (c :: s)) := by
  induction n generalizing c s with
  | zero =>
    by_cases hshort : c = ':' ∨ ' ' ∉ c :: s ∨
        ∃ tok p, strchr ' ' (c :: s) = some (tok, p) ∧ skipBlanks p = []
    · obtain ⟨hread, hspaced⟩ := toArrayFrom_short 0 hc hshort
      exact iff_of_true hread hspaced
    · obtain ⟨tok, p, d, rest, hcolon, hcut, hrest⟩ := long_of_not_short hshort
      obtain ⟨htok, hbehind⟩ := takeWhile_of_strchr hcut
      rw [toArrayFrom_cut 0 hcolon hcut hrest, params_word 0 hc hcolon,
        behindWords_word 0 hc hcolon, htok, hbehind, if_pos rfl, List.cons.injEq,
        and_iff_right rfl, params_one ((skipBlanks_blank p).trans hrest), List.cons.injEq,
        and_iff_left rfl]
      exact stripColon_eq_iff hrest
  | succ n ih =>
    by_cases hshort : c = ':' ∨ ' ' ∉ c :: s ∨
        ∃ tok p, strchr ' ' (c :: s) = some (tok, p) ∧ skipBlanks p = []
    · obtain ⟨hread, hspaced⟩ := toArrayFrom_short (n + 1) hc hshort
      exact iff_of_true hread hspaced
    · obtain ⟨tok, p, d, rest, hcolon, hcut, hrest⟩ := long_of_not_short hshort
      obtain ⟨htok, hbehind⟩ := takeWhile_of_strchr hcut
      have hskip : skipBlanks (' ' :: p) = d :: rest := (skipBlanks_blank p).trans hrest
      rw [toArrayFrom_cut (n + 1) hcolon hcut hrest, params_word (n + 1) hc hcolon,
        behindWords_word (n + 1) hc hcolon, htok, hbehind, if_neg (Nat.succ_ne_zero n),
        List.cons.injEq, and_iff_right rfl, ← params_skipBlanks, ← behindWords_skipBlanks,
        hskip]
      exact ih (head_skipBlanks hrest)

/-! ### What the grammar promises -/

theorem length_params_le (room : Nat) (s : CStr) : (params room s).length ≤ room := by
  induction room generalizing s with
  | zero => simp [params]
  | succ room ih =>
    rw [params]
    split
    · simp
    · simp
    · split
      · simp
      · simpa using ih _

theorem params_plain (room : Nat) (s : CStr) {i : Nat} {w : CStr}
    (h : (params room s)[i]? = some w) :
    (w ≠ [] ∧ ' ' ∉ w) ∨
      (i + 1 = (params room s).length ∧ (':' :: w <:+ s ∨ i + 1 = room)) := by
  induction room generalizing s i with
  | zero => simp [params] at h
  | succ room ih =>
    have hsuffix : skipBlanks s <:+ s := List.dropWhile_suffix _
    rw [params] at h ⊢
    split at h
    · simp at h
    · rename_i rest hskip
      rw [hskip] at hsuffix
      cases i with
      | zero =>
        rw [List.getElem?_cons_zero, Option.some.injEq] at h
        subst h
        exact .inr ⟨rfl, .inl hsuffix⟩
      | succ i => simp at h
    · rename_i c t hcolon hskip
      by_cases hroom : room = 0
      · subst hroom
        rw [if_pos rfl] at h
        cases i with
        | zero => exact .inr ⟨rfl, .inr rfl⟩
        | succ i => simp at h
      · rw [if_neg hroom] at h ⊢
        cases i with
        | zero =>
          rw [List.getElem?_cons_zero, Option.some.injEq] at h
          subst h
          have hc : (c != ' ') = true := by simpa using head_skipBlanks hskip
          refine .inl ⟨by simp [hc], fun hmem => ?_⟩
          have hblank := List.mem_takeWhile_imp hmem
          simp at hblank
        | succ i =>
          rw [List.getElem?_cons_succ] at h
          rcases ih _ h with hword | ⟨hlast, htrail⟩
          · exact .inl hword
          · refine .inr ⟨by rw [List.length_cons, hlast], ?_⟩
            have htail : (c :: t).dropWhile (· != ' ') <:+ s :=
              (List.dropWhile_suffix _).trans (hskip ▸ hsuffix)
            rcases htrail with htrail | htrail
            · exact .inl (htrail.trans htail)
            · exact .inr (by rw [htrail])

/-! ### Exactly when the grammar is read -/

/-- What the parameters of a text are to be: those of the grammar for the places, with
nothing empty and no blank but in a parameter that takes the rest of the line,
and no more than there are places. -/
def FollowsGrammar (places : Nat) (s : CStr) : Prop :=
  stringToArrayOf (places + 1) s = params places s ∧
    (∀ i w, (stringToArrayOf (places + 1) s)[i]? = some w → (w ≠ [] ∧ ' ' ∉ w) ∨
      (i + 1 = (stringToArrayOf (places + 1) s).length ∧ (':' :: w <:+ s ∨ i + 1 = places))) ∧
    (stringToArrayOf (places + 1) s).length ≤ places

theorem toArrayFrom_ne_nil (n : Nat) (s : CStr) : toArrayFrom n s ≠ [] := by
  cases n with
  | zero => simp [toArrayFrom]
  | succ n =>
    unfold toArrayFrom
    split
    · simp
    · split
      · simp
      · split <;> simp

theorem toArrayFrom_one_iff (hc : c ≠ ' ') :
    toArrayFrom 1 (c :: s) = params 1 (c :: s) ↔ c = ':' ∨ ' ' ∉ c :: s := by
  rw [params_one (skipBlanks_of_ne hc s)]
  by_cases hcolon : c = ':'
  · subst hcolon
    simp [toArrayFrom, stripColon]
  · have hstrip : stripColon (c :: s) = c :: s := by
      unfold stripColon
      split
      · rename_i h
        exact absurd (List.cons.inj h).1 hcolon
      · rfl
    rw [hstrip, or_iff_right hcolon]
    cases hcut : strchr ' ' (c :: s) with
    | none =>
      have hread : toArrayFrom 1 (c :: s) = [c :: s] := by
        rw [toArrayFrom, hcut]
        exact fun rest hrest => hcolon (List.cons.inj hrest).1
      exact iff_of_true hread (strchr_eq_none_iff.mp hcut)
    | some found =>
      obtain ⟨tok, p⟩ := found
      obtain ⟨hsplit, -⟩ := strchr_eq_some hcut
      have hmem : ' ' ∈ c :: s := by
        rw [hsplit]
        simp
      have hhead : (toArrayFrom 1 (c :: s)).head? = some tok := by
        rw [toArrayFrom, hcut]
        · dsimp only
          split <;> rfl
        · exact fun rest hrest => hcolon (List.cons.inj hrest).1
      apply iff_of_false _ (not_not.mpr hmem)
      intro hread
      rw [hread, List.head?_cons, Option.some.injEq, hsplit] at hhead
      have hlen := congrArg List.length hhead
      simp at hlen

theorem stringToArrayOf_iff (places : Nat) (s : CStr) :
    stringToArrayOf (places + 1) s = params places s ↔ ReadRight places s := by
  rw [stringToArrayOf, ← params_skipBlanks]
  cases hskip : skipBlanks s with
  | nil =>
    have hcode : s.dropWhile (· == ' ') = [] := hskip
    rw [hcode, params_of_blank _ rfl]
    refine iff_of_true rfl ?_
    match places with
    | 0 => exact hskip
    | 1 => exact .inr (by simp [hskip])
    | n + 2 => simp [ReadRight, behindWords, hskip, Spaced]
  | cons c t =>
    have hcode : s.dropWhile (· == ' ') = c :: t := hskip
    have hc := head_skipBlanks hskip
    rw [hcode]
    match places with
    | 0 =>
      rw [ReadRight, hskip]
      exact iff_of_false (toArrayFrom_ne_nil _ _) (List.cons_ne_nil _ _)
    | 1 =>
      rw [ReadRight, hskip, List.head?_cons, Option.some.injEq]
      exact toArrayFrom_one_iff hc
    | n + 2 =>
      rw [ReadRight, ← behindWords_skipBlanks, hskip]
      have hrounds : max 1 (n + 2 + 1 - 2) = n + 1 := by omega
      rw [hrounds]
      exact toArrayFrom_iff n hc

/-- `string_to_array` follows the grammar exactly for the texts of `ReadRight`: with
two places or more, for those in which no second blank stands before the last place. -/
theorem string_to_array_iff (places : Nat) (s : CStr) :
    FollowsGrammar places s ↔ ReadRight places s := by
  rw [← stringToArrayOf_iff]
  constructor
  · exact And.left
  · intro h
    rw [FollowsGrammar, h]
    exact ⟨rfl, fun i w => params_plain places s, length_params_le places s⟩

/-- Thirteen parameters, two blanks, and a last parameter behind a colon. -/
def wideLine : CStr := "1 2 3 4 5 6 7 8 9 10 11 12 13  :last one".toList

/-- The last parameter keeps its blank and its colon. -/
theorem last_parameter_keeps_blank :
    (stringToArray wideLine).getLast? = some " :last one".toList ∧
      (params 14 wideLine).getLast? = some "last one".toList ∧
      ¬ FollowsGrammar 14 wideLine := by
  refine ⟨by decide +kernel, by decide +kernel, fun h => ?_⟩
  have hread : stringToArray wideLine = params 14 wideLine := h.1
  exact absurd hread (by decide +kernel)

end Ircd
