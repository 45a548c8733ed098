import Ircd.ModeSend

/-!
Mode strings: letters with a sign wherever the direction changes, and the
parameters that the letters take one after the other.

- `readChanges_writeChanges`: what is written is read back.
- `readChanges_exact`: who reads the right parameter for every letter was given
  those parameters and no others in front of them.
-/

namespace Ircd

/-- A letter of a mode string, with the direction it stands in and the parameter
that goes with it. -/
structure LetterChange (α : Type) where
  dir : ModeDir
  letter : Char
  param : Option α
  deriving DecidableEq, Repr

/-- `+`, `-` and `=`. -/
def ModeDir.sign : ModeDir → Char
  | .add => '+'
  | .del => '-'
  | .query => '='

/-- The direction that a sign switches to. -/
def signDir : Char → Option ModeDir
  | '+' => some .add
  | '-' => some .del
  | '=' => some .query
  | _ => none

@[simp] theorem signDir_sign (dir : ModeDir) : signDir dir.sign = some dir := by
  cases dir <;> rfl

section Reading

-- The letters that take a parameter.
variable {α : Type} (takes : ModeDir → Char → Bool)

/-- Reading a mode string letter by letter: a letter that takes a parameter takes
the next one, if there is one. What is left of the parameters is returned. -/
def readChanges : ModeDir → CStr → List α → List (LetterChange α) × List α
  | _, [], params => ([], params)
  | dir, c :: s, params =>
    match signDir c with
    | some dir => readChanges dir s params
    | none =>
      let out := readChanges dir s (if takes dir c then params.tail else params)
      (⟨dir, c, if takes dir c then params.head? else none⟩ :: out.1, out.2)

/-- The mode string of some changes, behind a letter with this direction. -/
def writeChanges : ModeDir → List (LetterChange α) → CStr
  | _, [] => []
  | dir, c :: cs =>
    (if dir = c.dir then [] else [c.dir.sign]) ++ c.letter :: writeChanges c.dir cs

def paramsOf (cs : List (LetterChange α)) : List α := cs.filterMap LetterChange.param

theorem paramsOf_append (cs ds : List (LetterChange α)) :
    paramsOf (cs ++ ds) = paramsOf cs ++ paramsOf ds := List.filterMap_append

/-- No letter is a sign, and just the letters that take a parameter have one. -/
structure Wellsigned (cs : List (LetterChange α)) : Prop where
  letter : ∀ c ∈ cs, signDir c.letter = none
  param : ∀ c ∈ cs, c.param.isSome = takes c.dir c.letter

variable {takes}

theorem Wellsigned.tail {c : LetterChange α} {cs : List (LetterChange α)}
    (h : Wellsigned takes (c :: cs)) : Wellsigned takes cs where
  letter d hd := h.letter d (List.mem_cons_of_mem _ hd)
  param d hd := h.param d (List.mem_cons_of_mem _ hd)

theorem writeChanges_append (dir : ModeDir) (cs ds : List (LetterChange α)) :
    writeChanges dir (cs ++ ds) =
      writeChanges dir cs ++ writeChanges (cs.foldl (fun _ c => c.dir) dir) ds := by
  induction cs generalizing dir with
  | nil => rfl
  | cons c cs ih => simp [writeChanges, ih]

theorem readChanges_letter {dir r : ModeDir} {c : LetterChange α}
    (hletter : signDir c.letter = none) (hdir : dir = r ∨ dir ≠ c.dir) (s : CStr)
    (params : List α) :
    readChanges takes r ((if dir = c.dir then [] else [c.dir.sign]) ++ c.letter :: s) params =
      let out := readChanges takes c.dir s (if takes c.dir c.letter then params.tail else params)
      (⟨c.dir, c.letter, if takes c.dir c.letter then params.head? else none⟩ :: out.1, out.2) := by
  by_cases h : dir = c.dir
  · have hfrom : r = c.dir := by
      rcases hdir with rfl | hne
      · exact h
      · exact absurd h hne
    rw [if_pos h, List.nil_append, readChanges, hletter, hfrom]
  · rw [if_neg h, List.singleton_append, readChanges, signDir_sign]
    dsimp only
    rw [readChanges, hletter]

theorem readChanges_writeChanges {cs : List (LetterChange α)} (hcs : Wellsigned takes cs)
    {dir r : ModeDir} (hdir : dir = r ∨ ∀ c ∈ cs.head?, dir ≠ c.dir) (rest : List α) :
    readChanges takes r (writeChanges dir cs) (paramsOf cs ++ rest) = (cs, rest) := by
  induction cs generalizing dir r with
  | nil => rfl
  | cons c cs ih =>
    have hletter := hcs.letter c (by simp)
    have hparam := hcs.param c (by simp)
    have hhead : dir = r ∨ dir ≠ c.dir := hdir.imp_right fun h => h c rfl
    have htail := ih hcs.tail (r := c.dir) (.inl rfl)
    obtain ⟨cdir, letter, param⟩ := c
    rw [writeChanges, readChanges_letter hletter hhead]
    dsimp only at hparam htail ⊢
    cases param with
    | none =>
      have htakes : takes cdir letter = false := hparam.symm
      have hparams : paramsOf (⟨cdir, letter, none⟩ :: cs) = paramsOf cs := by simp [paramsOf]
      simp [htakes, hparams, htail]
    | some p =>
      have htakes : takes cdir letter = true := hparam.symm
      have hparams : paramsOf (⟨cdir, letter, some p⟩ :: cs) = p :: paramsOf cs := by
        simp [paramsOf]
      simp [htakes, hparams, htail]

/-- Who reads for every letter the parameter that belongs to it reads the changes
that were written, and was given their parameters in front. -/
theorem readChanges_exact {right : ModeDir → Char → Option α} {cs : List (LetterChange α)}
    (hcs : Wellsigned takes cs) (hright : ∀ c ∈ cs, c.param = right c.dir c.letter)
    {dir r : ModeDir} (hdir : dir = r ∨ ∀ c ∈ cs.head?, dir ≠ c.dir) {params : List α}
    (h : ∀ c ∈ (readChanges takes r (writeChanges dir cs) params).1,
      c.param = right c.dir c.letter) : ∃ left, params = paramsOf cs ++ left := by
  induction cs generalizing dir r params with
  | nil => exact ⟨params, rfl⟩
  | cons c cs ih =>
    have hletter := hcs.letter c (by simp)
    have hparam := hcs.param c (by simp)
    have hown := hright c (by simp)
    have hhead : dir = r ∨ dir ≠ c.dir := hdir.imp_right fun h => h c rfl
    rw [writeChanges, readChanges_letter hletter hhead] at h
    have hread := h _ List.mem_cons_self
    have htail := ih hcs.tail (fun d hd => hright d (List.mem_cons_of_mem _ hd))
      (r := c.dir) (.inl rfl) fun d hd => h d (List.mem_cons_of_mem _ hd)
    obtain ⟨cdir, letter, param⟩ := c
    dsimp only at hparam hown hread htail
    rw [← hown] at hread
    obtain ⟨left, hleft⟩ := htail
    cases param with
    | none =>
      have htakes : takes cdir letter = false := hparam.symm
      simp only [htakes] at hleft
      exact ⟨left, by simpa [paramsOf] using hleft⟩
    | some p =>
      have htakes : takes cdir letter = true := hparam.symm
      simp only [htakes, if_true] at hread hleft
      obtain ⟨tail, rfl⟩ : ∃ tail, params = p :: tail := by
        cases params with
        | nil => simp at hread
        | cons q tail =>
          rw [List.head?_cons, Option.some.injEq] at hread
          exact ⟨tail, by rw [hread]⟩
      exact ⟨left, by simpa [paramsOf] using hleft⟩

end Reading

end Ircd
