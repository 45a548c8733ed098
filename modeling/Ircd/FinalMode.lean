import Ircd.ModeLetters
import Ircd.SjoinText

/-!
`set_final_mode`, which composes the mode line that the local members are sent when
a JOIN or SJOIN of a server changed the modes of a channel. `m_sjoin.c` and
`m_join.c` have a copy each.

Both write the same changes in another order. The copy of `m_join.c` writes to
`parabuf` only behind a parameter, so without one the text of an earlier line stays.

- `foldl_joinChanges`, `foldl_sjoinChanges`: the changes turn the old modes into
  the new ones.
- `final_mode_announced_iff`: when the line says just that.
-/

namespace Ircd

open List

/-! ### The copy of `m_join.c` -/

/-- `mbuf` and `what`. -/
structure SignedBuf where
  text : CStr := []
  what : ModeDir := .query
  deriving DecidableEq, Repr

/-- A letter is written, with a sign unless `what` is its direction. -/
def SignedBuf.put (b : SignedBuf) (dir : ModeDir) (c : Char) : SignedBuf where
  text := b.text ++ if b.what = dir then [c] else [dir.sign, c]
  what := dir

/-- `set_final_mode` of `m_join.c`: what it leaves in `modebuf`, and in `parabuf`
where `parabuf` stood before. -/
def joinSetFinalMode (parabuf : CStr) (mode old : Mode) : CStr × CStr :=
  let b : SignedBuf := sjoinFlags.foldl (fun b f =>
    if f ∈ mode.mode ∧ f ∉ old.mode then b.put .add f.letter else b) {}
  let b := sjoinFlags.foldl (fun b f =>
    if f ∈ old.mode ∧ f ∉ mode.mode then b.put .del f.letter else b) b
  let b := if old.limit ≠ 0 ∧ mode.limit = 0 then b.put .del 'l' else b
  let (b, params) :=
    if old.key ≠ [] ∧ mode.key = [] then (b.put .del 'k', [old.key]) else (b, [])
  let (b, params) :=
    if mode.limit ≠ 0 ∧ old.limit ≠ mode.limit then
      (b.put .add 'l', params ++ [dText (limitToInt mode.limit)])
    else (b, params)
  let (b, params) :=
    if mode.key ≠ [] ∧ old.key ≠ mode.key then (b.put .add 'k', params ++ [mode.key])
    else (b, params)
  (b.text, if params = [] then parabuf else words params)

/-! ### What is asked of the line -/

/-- The letters of a mode line to a client that take a parameter, `+l` but not `-l`. -/
def takesParam (dir : ModeDir) (c : Char) : Bool := c == 'k' || (c == 'l' && dir == .add)

/-- A letter is applied to the modes of a channel. -/
def Mode.change (mode : Mode) (c : LetterChange CStr) : Mode :=
  match c.dir, c.letter, c.param with
  | .add, 'k', some key => { mode with key := strlcpy key KEYLEN }
  | .del, 'k', some _ => { mode with key := [] }
  | .add, 'l', some limit => { mode with limit := toLimit (atoi limit) }
  | .del, 'l', _ => { mode with limit := 0 }
  | .add, letter, _ => { mode with mode := mode.mode ∪ (simpleModeOf letter).toFinset }
  | .del, letter, _ => { mode with mode := mode.mode \ (simpleModeOf letter).toFinset }
  | .query, _, _ => mode

/-- The changes that a client reads in a mode string and its parameters, and the
parameters that no letter takes. -/
def announced (out : CStr × CStr) : List (LetterChange CStr) × List CStr :=
  readChanges takesParam .add out.1 (stringToArray out.2)

/-- The parameter that belongs behind a letter in a change from `old` to `mode`. -/
def paramFor (mode old : Mode) : ModeDir → Char → Option CStr
  | .del, 'k' => some old.key
  | .add, 'k' => some mode.key
  | .add, 'l' => some (dText (limitToInt mode.limit))
  | _, _ => none

/-- The part of the modes that a letter is about differs. -/
def Differs (mode old : Mode) (letter : Char) : Prop :=
  (letter = 'k' ∧ old.key ≠ mode.key) ∨ (letter = 'l' ∧ old.limit ≠ mode.limit) ∨
    ∃ f : SimpleMode, letter = f.letter ∧ ¬(f ∈ old.mode ↔ f ∈ mode.mode)

/-- The line turns `old` into `mode`, every letter is about a part that differs and
has the parameter that belongs to it, and no parameter is left. -/
structure Announces (mode old : Mode) (out : CStr × CStr) : Prop where
  applied : (announced out).1.foldl Mode.change old = mode
  differs : ∀ c ∈ (announced out).1, Differs mode old c.letter
  right : ∀ c ∈ (announced out).1, c.param = paramFor mode old c.dir c.letter
  nothingElse : (announced out).2 = []

/-! ### The changes that are written -/

section Changes

variable (mode old : Mode)

def flagsOn : List (LetterChange CStr) :=
  (sjoinFlags.filter fun f => f ∈ mode.mode ∧ f ∉ old.mode).map fun f => ⟨.add, f.letter, none⟩

def flagsOff : List (LetterChange CStr) :=
  (sjoinFlags.filter fun f => f ∈ old.mode ∧ f ∉ mode.mode).map fun f => ⟨.del, f.letter, none⟩

def limitOff : List (LetterChange CStr) :=
  if old.limit ≠ 0 ∧ mode.limit = 0 then [⟨.del, 'l', none⟩] else []

def keyOff : List (LetterChange CStr) :=
  if old.key ≠ [] ∧ mode.key = [] then [⟨.del, 'k', some old.key⟩] else []

def limitOn : List (LetterChange CStr) :=
  if mode.limit ≠ 0 ∧ old.limit ≠ mode.limit then
    [⟨.add, 'l', some (dText (limitToInt mode.limit))⟩]
  else []

def keyOn : List (LetterChange CStr) :=
  if mode.key ≠ [] ∧ old.key ≠ mode.key then [⟨.add, 'k', some mode.key⟩] else []

/-- The changes in the order of `m_join.c`. -/
def joinChanges : List (LetterChange CStr) :=
  flagsOn mode old ++ (flagsOff mode old ++ (limitOff mode old ++ (keyOff mode old ++
    (limitOn mode old ++ keyOn mode old))))

/-- The changes in the order of `m_sjoin.c`. -/
def sjoinChanges : List (LetterChange CStr) :=
  flagsOff mode old ++ (limitOff mode old ++ (keyOff mode old ++ (flagsOn mode old ++
    (limitOn mode old ++ keyOn mode old))))

def finalParams : List CStr :=
  (if old.key ≠ [] ∧ mode.key = [] then [old.key] else []) ++
    ((if mode.limit ≠ 0 ∧ old.limit ≠ mode.limit then [dText (limitToInt mode.limit)] else []) ++
      (if mode.key ≠ [] ∧ old.key ≠ mode.key then [mode.key] else []))

theorem perm_joinChanges : (joinChanges mode old).Perm (sjoinChanges mode old) := by
  have hswap : (flagsOn mode old ++
      (flagsOff mode old ++ (limitOff mode old ++ keyOff mode old))).Perm
        (flagsOff mode old ++ (limitOff mode old ++ keyOff mode old) ++ flagsOn mode old) :=
    perm_append_comm
  have hfront := hswap.append_right (limitOn mode old ++ keyOn mode old)
  simpa [joinChanges, sjoinChanges] using hfront

theorem mem_joinChanges {c : LetterChange CStr} (h : c ∈ joinChanges mode old) :
    (c.dir ≠ .query ∧ signDir c.letter = none ∧ c.param.isSome = takesParam c.dir c.letter) ∧
      Differs mode old c.letter ∧ c.param = paramFor mode old c.dir c.letter := by
  have hflag : ∀ (f : SimpleMode) (dir : ModeDir), dir ≠ .query → ¬(f ∈ old.mode ↔ f ∈ mode.mode) →
      c = ⟨dir, f.letter, none⟩ → (c.dir ≠ .query ∧ signDir c.letter = none ∧
        c.param.isSome = takesParam c.dir c.letter) ∧
      Differs mode old c.letter ∧ c.param = paramFor mode old c.dir c.letter := by
    rintro f dir hdir hf rfl
    refine ⟨⟨hdir, ?_, ?_⟩, .inr (.inr ⟨f, rfl, hf⟩), ?_⟩
    · cases f <;> rfl
    · cases f <;> cases dir <;> rfl
    · cases f <;> cases dir <;> rfl
  simp only [joinChanges, mem_append] at h
  rcases h with h | h | h | h | h | h
  · obtain ⟨f, hf, rfl⟩ := List.mem_map.mp h
    have hmem := of_decide_eq_true (List.mem_filter.mp hf).2
    exact hflag f .add (by decide) (fun hiff => hmem.2 (hiff.mpr hmem.1)) rfl
  · obtain ⟨f, hf, rfl⟩ := List.mem_map.mp h
    have hmem := of_decide_eq_true (List.mem_filter.mp hf).2
    exact hflag f .del (by decide) (fun hiff => hmem.2 (hiff.mp hmem.1)) rfl
  · unfold limitOff at h
    split at h
    · rename_i hlimit
      obtain rfl := List.mem_singleton.mp h
      exact ⟨⟨by decide, rfl, rfl⟩, .inr (.inl ⟨rfl, fun heq => hlimit.1 (heq.trans hlimit.2)⟩),
        rfl⟩
    · exact absurd h not_mem_nil
  · unfold keyOff at h
    split at h
    · rename_i hkey
      obtain rfl := List.mem_singleton.mp h
      exact ⟨⟨by simp, rfl, rfl⟩, .inl ⟨rfl, fun heq => hkey.1 (heq.trans hkey.2)⟩, rfl⟩
    · exact absurd h not_mem_nil
  · unfold limitOn at h
    split at h
    · rename_i hlimit
      obtain rfl := List.mem_singleton.mp h
      exact ⟨⟨by simp, rfl, rfl⟩, .inr (.inl ⟨rfl, hlimit.2⟩), rfl⟩
    · exact absurd h not_mem_nil
  · unfold keyOn at h
    split at h
    · rename_i hkey
      obtain rfl := List.mem_singleton.mp h
      exact ⟨⟨by simp, rfl, rfl⟩, .inl ⟨rfl, hkey.2⟩, rfl⟩
    · exact absurd h not_mem_nil

theorem paramsOf_joinChanges : paramsOf (joinChanges mode old) = finalParams mode old := by
  have hflags : ∀ (dir : ModeDir) (fs : List SimpleMode),
      paramsOf (fs.map fun f => (⟨dir, f.letter, none⟩ : LetterChange CStr)) = [] := by
    intro dir fs
    simp [paramsOf, filterMap_map]
  simp only [joinChanges, paramsOf_append, flagsOn, flagsOff, hflags, nil_append, limitOff,
    keyOff, limitOn, keyOn, finalParams]
  split <;> split <;> split <;> split <;> simp_all [paramsOf]

theorem paramsOf_sjoinChanges : paramsOf (sjoinChanges mode old) = finalParams mode old := by
  rw [← paramsOf_joinChanges]
  simp only [joinChanges, sjoinChanges, paramsOf_append]
  have hflags : paramsOf (flagsOn mode old) = [] := by
    simp [flagsOn, paramsOf, filterMap_map]
  simp [hflags]

/-! ### What the changes do -/

variable {mode old}

theorem foldl_flagsOn (m : Mode) : (flagsOn mode old).foldl Mode.change m =
    { m with mode := m.mode ∪ (mode.mode \ old.mode) } := by
  have hfold : ∀ (fs : List SimpleMode) (m : Mode),
      (fs.map fun f => (⟨.add, f.letter, none⟩ : LetterChange CStr)).foldl Mode.change m =
        { m with mode := m.mode ∪ fs.toFinset } := by
    intro fs
    induction fs with
    | nil => simp
    | cons f fs ih =>
      intro m
      have hstep : m.change ⟨.add, f.letter, none⟩ = { m with mode := m.mode ∪ {f} } := by
        cases f <;> rfl
      rw [map_cons, foldl_cons, hstep, ih]
      simp
  rw [flagsOn, hfold]
  congr 2
  ext f
  have hall : f ∈ sjoinFlags := by cases f <;> decide
  simp [hall]

theorem foldl_flagsOff (m : Mode) : (flagsOff mode old).foldl Mode.change m =
    { m with mode := m.mode \ (old.mode \ mode.mode) } := by
  have hfold : ∀ (fs : List SimpleMode) (m : Mode),
      (fs.map fun f => (⟨.del, f.letter, none⟩ : LetterChange CStr)).foldl Mode.change m =
        { m with mode := m.mode \ fs.toFinset } := by
    intro fs
    induction fs with
    | nil => simp
    | cons f fs ih =>
      intro m
      have hstep : m.change ⟨.del, f.letter, none⟩ = { m with mode := m.mode \ {f} } := by
        cases f <;> rfl
      rw [map_cons, foldl_cons, hstep, ih, toFinset_cons]
      congr 1
      ext g
      simp only [Finset.mem_sdiff, Finset.mem_singleton, Finset.mem_insert]
      tauto
  rw [flagsOff, hfold]
  congr 2
  ext f
  have hall : f ∈ sjoinFlags := by cases f <;> decide
  simp [hall]

theorem foldl_limitOff (m : Mode) : (limitOff mode old).foldl Mode.change m =
    { m with limit := if old.limit ≠ 0 ∧ mode.limit = 0 then 0 else m.limit } := by
  unfold limitOff
  split <;> rfl

theorem foldl_keyOff (m : Mode) : (keyOff mode old).foldl Mode.change m =
    { m with key := if old.key ≠ [] ∧ mode.key = [] then [] else m.key } := by
  unfold keyOff
  split <;> rfl

theorem foldl_limitOn (m : Mode) : (limitOn mode old).foldl Mode.change m =
    { m with
      limit := if mode.limit ≠ 0 ∧ old.limit ≠ mode.limit then mode.limit else m.limit } := by
  unfold limitOn
  split
  · simp [Mode.change, toLimit_dText]
  · rfl

theorem foldl_keyOn (hmode : mode.Wf) (m : Mode) : (keyOn mode old).foldl Mode.change m =
    { m with key := if mode.key ≠ [] ∧ old.key ≠ mode.key then mode.key else m.key } := by
  have hkey : strlcpy mode.key KEYLEN = mode.key := take_of_length_le (by
    rw [Mode.Wf] at hmode
    omega)
  unfold keyOn
  split
  · simp [Mode.change, hkey]
  · rfl

theorem switched {α : Type} [DecidableEq α] (absent new old : α) :
    (if new ≠ absent ∧ old ≠ new then new else if old ≠ absent ∧ new = absent then absent
      else old) = new := by
  by_cases hnew : new = absent
  · by_cases hold : old = absent
    · simp [hnew, hold]
    · simp [hnew, hold]
  · by_cases hold : old = new
    · simp [hold]
    · simp [hnew, hold]

theorem foldl_joinChanges (hmode : mode.Wf) : (joinChanges mode old).foldl Mode.change old =
    mode := by
  simp only [joinChanges, foldl_append, foldl_flagsOn, foldl_flagsOff, foldl_limitOff,
    foldl_keyOff, foldl_limitOn, foldl_keyOn hmode]
  obtain ⟨flags, limit, key⟩ := mode
  obtain ⟨flags', limit', key'⟩ := old
  dsimp only
  refine Mode.mk.injEq .. |>.mpr ⟨?_, ?_, ?_⟩
  · ext f
    simp only [Finset.mem_sdiff, Finset.mem_union]
    tauto
  · exact switched 0 limit limit'
  · exact switched [] key key'

theorem foldl_sjoinChanges (hmode : mode.Wf) : (sjoinChanges mode old).foldl Mode.change old =
    mode := by
  simp only [sjoinChanges, foldl_append, foldl_flagsOn, foldl_flagsOff, foldl_limitOff,
    foldl_keyOff, foldl_limitOn, foldl_keyOn hmode]
  obtain ⟨flags, limit, key⟩ := mode
  obtain ⟨flags', limit', key'⟩ := old
  dsimp only
  refine Mode.mk.injEq .. |>.mpr ⟨?_, ?_, ?_⟩
  · ext f
    simp only [Finset.mem_sdiff, Finset.mem_union]
    tauto
  · exact switched 0 limit limit'
  · exact switched [] key key'

/-! ### What is written -/

theorem foldl_put (cs : List (LetterChange CStr)) (b : SignedBuf) :
    cs.foldl (fun b c => b.put c.dir c.letter) b =
      ⟨b.text ++ writeChanges b.what cs, cs.foldl (fun _ c => c.dir) b.what⟩ := by
  induction cs generalizing b with
  | nil => simp [writeChanges]
  | cons c cs ih =>
    rw [foldl_cons, ih]
    by_cases h : b.what = c.dir <;> simp [SignedBuf.put, writeChanges, h]

theorem joinSetFinalMode_eq (parabuf : CStr) : joinSetFinalMode parabuf mode old =
    (writeChanges .query (joinChanges mode old),
      if finalParams mode old = [] then parabuf else words (finalParams mode old)) := by
  have hon : ∀ b : SignedBuf, sjoinFlags.foldl (fun b f =>
      if f ∈ mode.mode ∧ f ∉ old.mode then b.put .add f.letter else b) b =
      (flagsOn mode old).foldl (fun b c => b.put c.dir c.letter) b := by
    intro b
    rw [flagsOn, foldl_map, foldl_filter]
    simp
  have hoff : ∀ b : SignedBuf, sjoinFlags.foldl (fun b f =>
      if f ∈ old.mode ∧ f ∉ mode.mode then b.put .del f.letter else b) b =
      (flagsOff mode old).foldl (fun b c => b.put c.dir c.letter) b := by
    intro b
    rw [flagsOff, foldl_map, foldl_filter]
    simp
  have htext : writeChanges .query (joinChanges mode old) =
      ((joinChanges mode old).foldl (fun b c => b.put c.dir c.letter) ({} : SignedBuf)).text := by
    rw [foldl_put]
    rfl
  rw [htext]
  simp only [joinSetFinalMode, hon, hoff, joinChanges, foldl_append, limitOff, keyOff, limitOn,
    keyOn, finalParams]
  generalize (flagsOff mode old).foldl _ _ = b
  split <;> split <;> split <;> split <;> simp_all

theorem writeChanges_same {dir : ModeDir} {cs : List (LetterChange CStr)}
    (h : ∀ c ∈ cs, c.dir = dir) :
    writeChanges dir cs = cs.map LetterChange.letter := by
  induction cs with
  | nil => rfl
  | cons c cs ih =>
    have hc := h c (by simp)
    have htail := ih fun d hd => h d (mem_cons_of_mem _ hd)
    rw [writeChanges, if_pos hc.symm, hc, htail]
    rfl

theorem lastDir_same {dir what : ModeDir} {cs : List (LetterChange CStr)}
    (h : ∀ c ∈ cs, c.dir = dir) :
    cs.foldl (fun _ c => c.dir) what = if cs = [] then what else dir := by
  induction cs generalizing what with
  | nil => rfl
  | cons c cs ih =>
    rw [foldl_cons, ih fun d hd => h d (mem_cons_of_mem _ hd), h c (by simp)]
    simp

theorem writeChanges_other {dir what : ModeDir} {cs : List (LetterChange CStr)}
    (hwhat : what ≠ dir) (h : ∀ c ∈ cs, c.dir = dir) :
    writeChanges what cs =
      if cs.map LetterChange.letter = [] then [] else dir.sign :: cs.map LetterChange.letter := by
  cases cs with
  | nil => rfl
  | cons c cs =>
    have hc := h c (by simp)
    have htail := writeChanges_same fun d hd => h d (mem_cons_of_mem _ hd)
    rw [writeChanges, if_neg (by rw [hc]; exact hwhat), hc, htail]
    simp

theorem setFinalMode_eq : setFinalMode mode old =
    (writeChanges .query (sjoinChanges mode old), words (finalParams mode old)) := by
  have hminus : ∀ c ∈ flagsOff mode old ++ (limitOff mode old ++ keyOff mode old),
      c.dir = .del := by
    intro c hc
    simp only [mem_append, flagsOff, mem_map, limitOff, keyOff] at hc
    rcases hc with ⟨f, -, rfl⟩ | hc | hc
    · rfl
    · split at hc <;> simp_all
    · split at hc <;> simp_all
  have hplus : ∀ c ∈ flagsOn mode old ++ (limitOn mode old ++ keyOn mode old),
      c.dir = .add := by
    intro c hc
    simp only [mem_append, flagsOn, mem_map, limitOn, keyOn] at hc
    rcases hc with ⟨f, -, rfl⟩ | hc | hc
    · rfl
    · split at hc <;> simp_all
    · split at hc <;> simp_all
  have hsplit : sjoinChanges mode old =
      (flagsOff mode old ++ (limitOff mode old ++ keyOff mode old)) ++
        (flagsOn mode old ++ (limitOn mode old ++ keyOn mode old)) := by
    simp [sjoinChanges]
  have hdir : (flagsOff mode old ++ (limitOff mode old ++ keyOff mode old)).foldl
      (fun _ c => c.dir) ModeDir.query ≠ .add := by
    rw [lastDir_same hminus]
    split <;> decide
  have hflags : ∀ (dir : ModeDir) (fs : List SimpleMode),
      (fs.map fun f => (⟨dir, f.letter, none⟩ : LetterChange CStr)).map LetterChange.letter =
        fs.map SimpleMode.letter := by
    intro dir fs
    rw [map_map]
    rfl
  have hoff : (flagsOff mode old ++ (limitOff mode old ++ keyOff mode old)).map
      LetterChange.letter =
      (sjoinFlags.filter fun f => decide (f ∈ old.mode) && !decide (f ∈ mode.mode)).map
        SimpleMode.letter ++
      (if old.limit ≠ 0 ∧ mode.limit = 0 then ['l'] else []) ++
      (if old.key ≠ [] ∧ mode.key = [] then ['k'] else []) := by
    simp only [map_append, flagsOff, hflags, limitOff, keyOff, apply_ite (List.map _),
      map_cons, map_nil, append_assoc, Bool.decide_and, decide_not]
  have hon : (flagsOn mode old ++ (limitOn mode old ++ keyOn mode old)).map LetterChange.letter =
      (sjoinFlags.filter fun f => decide (f ∈ mode.mode) && !decide (f ∈ old.mode)).map
        SimpleMode.letter ++
      (if mode.limit ≠ 0 ∧ old.limit ≠ mode.limit then ['l'] else []) ++
      (if mode.key ≠ [] ∧ old.key ≠ mode.key then ['k'] else []) := by
    simp only [map_append, flagsOn, hflags, limitOn, keyOn, apply_ite (List.map _),
      map_cons, map_nil, append_assoc, Bool.decide_and, decide_not]
  rw [hsplit, writeChanges_append, writeChanges_other (by decide) hminus,
    writeChanges_other hdir hplus, hoff, hon]
  simp only [setFinalMode, finalParams, append_assoc]
  rfl

end Changes

/-! ### The words of the parameters -/

theorem head?_dropBlanks (s : CStr) : (s.dropWhile (· == ' ')).head? ≠ some ' ' := by
  intro hhead
  have hnot := head?_dropWhile_not (p := (· == ' ')) (l := s)
  rw [hhead] at hnot
  exact absurd hnot (by decide)

theorem isWord_or_colon {n : Nat} {buf w : CStr} (hne : buf ≠ []) (hblank : buf.head? ≠ some ' ')
    (hlen : (toArrayFrom n buf).length ≤ n) (h : w ∈ toArrayFrom n buf) :
    IsWord w ∨ ∃ pre, buf = pre ++ ':' :: w := by
  induction n generalizing buf with
  | zero =>
    rw [toArrayFrom, length_singleton] at hlen
    omega
  | succ n ih =>
    unfold toArrayFrom at h hlen
    split at h
    · rename_i s
      exact .inr ⟨[], by rw [List.mem_singleton.mp h, nil_append]⟩
    · rename_i hcolon
      have hhead : ∀ tok p, buf = tok ++ p → tok ≠ [] → tok.head? ≠ some ':' := by
        rintro (- | ⟨c, tok⟩) p hbuf htok hc
        · exact htok rfl
        · rw [head?_cons, Option.some.injEq] at hc
          exact hcolon (tok ++ p) (by rw [hbuf, hc]; rfl)
      split at h
      · rename_i hcut
        obtain rfl := List.mem_singleton.mp h
        exact .inl ⟨hne, strchr_eq_none_iff.mp hcut,
          hhead w [] (append_nil w).symm hne⟩
      · rename_i tok p hcut
        obtain ⟨hbuf, htok⟩ := strchr_eq_some hcut
        have htokne : tok ≠ [] := by
          rintro rfl
          exact hblank (by rw [hbuf]; rfl)
        have hword : IsWord tok := ⟨htokne, htok, hhead tok _ hbuf htokne⟩
        split at h
        · exact .inl (List.mem_singleton.mp h ▸ hword)
        · rename_i c rest hrest
          simp only [hcut, hrest, length_cons] at hlen
          rcases List.mem_cons.mp h with rfl | h
          · exact .inl hword
          · by_cases hn : n = 0
            · simp [hn] at hlen
            · rw [if_neg hn] at h hlen
              have hc : (c :: rest).head? ≠ some ' ' := hrest ▸ head?_dropBlanks p
              apply (ih (by simp) hc (by omega) h).imp_right
              rintro ⟨pre, hpre⟩
              obtain ⟨blanks, rfl⟩ : ∃ blanks, p = blanks ++ (c :: rest) :=
                ⟨p.takeWhile (· == ' '), by rw [← hrest, takeWhile_append_dropWhile]⟩
              exact ⟨tok ++ ' ' :: (blanks ++ pre), by rw [hbuf, hpre]; simp⟩

theorem isWord_of_read {ps : List CStr} (hlen : ps.length ≤ MAXPARA - 2)
    (hread : stringToArray (words ps) = ps) : ∀ w ∈ ps, IsWord w := by
  intro w hw
  rcases eq_nil_or_concat ps with rfl | ⟨init, v, hps⟩
  · exact absurd hw not_mem_nil
  rw [concat_eq_append] at hps
  have hinit : ∀ u ∈ init, IsWord u := fun u hu =>
    isWord_of_mem_stringToArray (s := words ps) (by rw [hread, hps, dropLast_concat]; exact hu)
  by_cases hmem : w ∈ init
  · exact hinit w hmem
  have hwv : w = v := by
    rw [hps] at hw
    rcases List.mem_append.mp hw with h | h
    · exact absurd h hmem
    · exact List.mem_singleton.mp h
  have htext : words ps = words init ++ (w ++ [' ']) := by rw [hps, words_append, hwv]; simp [words]
  have hfrom : IsWord w ∨ ∃ pre, words ps = pre ++ ':' :: w := by
    have hsplit : words ps = (words ps).takeWhile (· == ' ') ++ (words ps).dropWhile (· == ' ') :=
      List.takeWhile_append_dropWhile.symm
    rw [stringToArray] at hread
    split at hread
    · exact absurd hread.symm (ne_nil_of_mem hw)
    · rename_i c s hdrop
      have hhead : (c :: s).head? ≠ some ' ' := hdrop ▸ head?_dropBlanks (words ps)
      refine (isWord_or_colon (by simp) hhead (by rw [hread]; exact hlen)
        (by rw [hread]; exact hw)).imp_right ?_
      rintro ⟨pre, hpre⟩
      exact ⟨(words ps).takeWhile (· == ' ') ++ pre, by
        rw [append_assoc, ← hpre, ← hdrop]
        exact hsplit⟩
  rcases hfrom with hword | ⟨pre, hpre⟩
  · exact hword
  · -- the colon would be the first character of `w` and a blank the last one
    have hsame : ':' :: w = w ++ [' '] :=
      (append_inj' (hpre.symm.trans htext) (by simp)).2
    have hcount := congrArg (List.count ':') hsame
    simp at hcount

/-! ### When the line is right -/

section Announced

variable {mode old : Mode}

theorem announced_written {cs : List (LetterChange CStr)} (hperm : (joinChanges mode old).Perm cs)
    {text : CStr} (left : List CStr) (htext : stringToArray text = paramsOf cs ++ left) :
    announced (writeChanges .query cs, text) = (cs, left) := by
  have hcs : Wellsigned takesParam cs :=
    ⟨fun c hc => (mem_joinChanges mode old (hperm.mem_iff.mpr hc)).1.2.1,
      fun c hc => (mem_joinChanges mode old (hperm.mem_iff.mpr hc)).1.2.2⟩
  rw [announced, htext]
  refine readChanges_writeChanges hcs (.inr fun c hc => ?_) left
  exact (mem_joinChanges mode old (hperm.mem_iff.mpr (mem_of_mem_head? hc))).1.1.symm

theorem announces_iff {cs : List (LetterChange CStr)} (hperm : (joinChanges mode old).Perm cs)
    (happly : cs.foldl Mode.change old = mode) (text : CStr) :
    Announces mode old (writeChanges .query cs, text) ↔ stringToArray text = paramsOf cs := by
  have hmem : ∀ c ∈ cs, _ := fun c hc => mem_joinChanges mode old (hperm.mem_iff.mpr hc)
  constructor
  · rintro ⟨-, -, hright, hnothing⟩
    have hcs : Wellsigned takesParam cs :=
      ⟨fun c hc => (hmem c hc).1.2.1, fun c hc => (hmem c hc).1.2.2⟩
    obtain ⟨left, hleft⟩ := readChanges_exact hcs (fun c hc => (hmem c hc).2.2)
      (.inr fun c hc => (hmem c (mem_of_mem_head? hc)).1.1.symm) hright
    rw [announced_written hperm left hleft] at hnothing
    have hnil : left = [] := hnothing
    rw [hleft, hnil, append_nil]
  · intro htext
    have hread := announced_written hperm [] (by rw [htext, append_nil])
    constructor
    · rw [hread]
      exact happly
    · rw [hread]
      exact fun c hc => (hmem c hc).2.1
    · rw [hread]
      exact fun c hc => (hmem c hc).2.2
    · rw [hread]

theorem length_finalParams_le : (finalParams mode old).length ≤ 2 := by
  by_cases hkey : mode.key = []
  · simp only [finalParams, hkey, ne_eq, not_true_eq_false, false_and, if_false, append_nil,
      length_append]
    split <;> split <;> simp
  · simp only [finalParams, hkey, and_false, if_false, nil_append, length_append]
    split <;> split <;> simp

theorem finalParams_eq_nil : finalParams mode old = [] ↔
    old.key = mode.key ∧ (mode.limit = 0 ∨ old.limit = mode.limit) := by
  by_cases hkey : mode.key = []
  · simp only [finalParams, hkey]
    split <;> split <;> simp_all [or_iff_not_imp_left]
  · simp only [finalParams, hkey]
    split <;> split <;> simp_all [or_iff_not_imp_left]

def writtenKey (mode old : Mode) : CStr := if mode.key = [] then old.key else mode.key

theorem isWord_finalParams : (∀ w ∈ finalParams mode old, IsWord w) ↔
    (old.key ≠ mode.key → IsWord (writtenKey mode old)) := by
  have hlimit : IsWord (dText (limitToInt mode.limit)) :=
    isWord_dText (limitToInt_bounds _).1 (limitToInt_bounds _).2
  have hlimits : ∀ w ∈ (if mode.limit ≠ 0 ∧ old.limit ≠ mode.limit then
      [dText (limitToInt mode.limit)] else []), IsWord w := by
    intro w hw
    split at hw
    · exact List.mem_singleton.mp hw ▸ hlimit
    · exact absurd hw not_mem_nil
  by_cases hkey : mode.key = []
  · have hold : old.key ≠ [] ↔ old.key ≠ mode.key := by rw [hkey]
    simp only [finalParams, writtenKey, hkey, and_true, ne_eq, not_true_eq_false, false_and,
      if_false, append_nil, if_true, forall_mem_append]
    constructor
    · rintro ⟨h, -⟩ hne
      exact h _ (by simp [hne])
    · intro h
      refine ⟨fun w hw => ?_, hlimits⟩
      split at hw
      · rename_i hne
        exact List.mem_singleton.mp hw ▸ h hne
      · exact absurd hw not_mem_nil
  · simp only [finalParams, writtenKey, hkey, and_false, if_false, nil_append, ne_eq,
      not_false_eq_true, true_and, forall_mem_append]
    constructor
    · rintro ⟨-, h⟩ hne
      exact h _ (by simp [hne])
    · intro h
      refine ⟨hlimits, fun w hw => ?_⟩
      split at hw
      · rename_i hne
        exact List.mem_singleton.mp hw ▸ h hne
      · exact absurd hw not_mem_nil

theorem read_finalParams : stringToArray (words (finalParams mode old)) = finalParams mode old ↔
    (old.key ≠ mode.key → IsWord (writtenKey mode old)) := by
  have hlen : (finalParams mode old).length ≤ MAXPARA - 2 :=
    length_finalParams_le.trans (by decide)
  rw [← isWord_finalParams]
  exact ⟨isWord_of_read hlen, fun h => stringToArray_words_only h hlen⟩

end Announced

/-- Both copies announce the change from `old` to `mode`, and the same changes, just
when the key that is written, if one is, is a word, and a parameter is written or
`parabuf` of `m_join.c` holds none from an earlier line. -/
theorem final_mode_announced_iff (parabuf : CStr) (old : Mode) {mode : Mode} (hmode : mode.Wf) :
    (Announces mode old (setFinalMode mode old) ∧
      Announces mode old (joinSetFinalMode parabuf mode old) ∧
      (announced (joinSetFinalMode parabuf mode old)).1.Perm
        (announced (setFinalMode mode old)).1) ↔
    (old.key ≠ mode.key → IsWord (writtenKey mode old)) ∧
      (old.key ≠ mode.key ∨ (mode.limit ≠ 0 ∧ old.limit ≠ mode.limit) ∨
        stringToArray parabuf = []) := by
  have hperm := perm_joinChanges mode old
  have hjoin := announces_iff (List.Perm.refl (joinChanges mode old)) (foldl_joinChanges hmode)
    (if finalParams mode old = [] then parabuf else words (finalParams mode old))
  have hsjoin := announces_iff hperm (foldl_sjoinChanges hmode) (words (finalParams mode old))
  rw [paramsOf_joinChanges] at hjoin
  rw [paramsOf_sjoinChanges, read_finalParams] at hsjoin
  have hnil : (old.key ≠ mode.key ∨ (mode.limit ≠ 0 ∧ old.limit ≠ mode.limit) ∨
      stringToArray parabuf = []) ↔ finalParams mode old = [] → stringToArray parabuf = [] := by
    rw [finalParams_eq_nil]
    tauto
  rw [setFinalMode_eq, joinSetFinalMode_eq, hnil, hsjoin, hjoin]
  constructor
  · rintro ⟨hkey, hread, -⟩
    refine ⟨hkey, fun hparams => ?_⟩
    rwa [if_pos hparams, hparams] at hread
  · rintro ⟨hkey, hparabuf⟩
    have hread : stringToArray
        (if finalParams mode old = [] then parabuf else words (finalParams mode old)) =
        finalParams mode old := by
      split
      · rename_i hparams
        rw [hparabuf hparams, hparams]
      · exact read_finalParams.mpr hkey
    refine ⟨hkey, hread, ?_⟩
    rw [announced_written (List.Perm.refl _) []
        (by rw [hread, paramsOf_joinChanges, append_nil]),
      announced_written hperm []
        (by rw [read_finalParams.mpr hkey, paramsOf_sjoinChanges, append_nil])]
    exact hperm

/-- A key and a limit are set on a channel without modes. -/
theorem final_mode_announced_iff_key :
    (⟨{.secret}, 5, "geheim".toList⟩ : Mode).Wf ∧
      Announces ⟨{.secret}, 5, "geheim".toList⟩ Mode.zero
        (joinSetFinalMode [] ⟨{.secret}, 5, "geheim".toList⟩ Mode.zero) := by
  have hmode : (⟨{.secret}, 5, "geheim".toList⟩ : Mode).Wf := by
    change 6 < 24
    decide
  refine ⟨hmode, ((final_mode_announced_iff [] Mode.zero hmode).mpr ⟨fun _ => ?_, ?_⟩).2.1⟩
  · exact ⟨by decide, by decide, by decide⟩
  · exact .inl (by decide)

/-- A JOIN sets a key on one channel, and the next one `+n` on another channel: the
line for the second channel goes on with the key of the first. -/
theorem joinSetFinalMode_old_key :
    let first := joinSetFinalMode [] ⟨∅, 0, "geheim".toList⟩ Mode.zero
    let second := joinSetFinalMode first.2 ⟨{.noprivmsgs}, 0, []⟩ Mode.zero
    announced second = ([⟨.add, 'n', none⟩], ["geheim".toList]) ∧
      ¬Announces ⟨{.noprivmsgs}, 0, []⟩ Mode.zero second := by
  have hread : announced (joinSetFinalMode
      (joinSetFinalMode [] ⟨∅, 0, "geheim".toList⟩ Mode.zero).2 ⟨{.noprivmsgs}, 0, []⟩ Mode.zero) =
      ([⟨.add, 'n', none⟩], ["geheim".toList]) := by
    decide +kernel
  refine ⟨hread, fun h => ?_⟩
  have hleft := h.nothingElse
  rw [hread] at hleft
  exact absurd hleft (by decide)

end Ircd
