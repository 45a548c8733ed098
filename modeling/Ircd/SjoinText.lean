import Ircd.SjoinMerge

/-!
What `ms_sjoin` writes is what `ms_sjoin` reads: modes with their parameters, the
words of a nick list and the status prefixes of a word.
-/

namespace Ircd

open List

/-! ### Modes -/

/-- `struct Mode` holds at most `KEYLEN - 1` characters of a key. -/
def Mode.Wf (mode : Mode) : Prop := mode.key.length < KEYLEN

theorem Mode.wf_zero : Mode.zero.Wf := by
  change 0 < 24
  omega

@[simp] theorem simpleModeOf_letter (f : SimpleMode) : simpleModeOf f.letter = some f := by
  cases f <;> decide

theorem wf_readModes {s : CStr} {mode mode' : Mode} {rest left : List CStr} (hmode : mode.Wf)
    (h : readModes s mode rest = some (mode', left)) : mode'.Wf := by
  fun_induction readModes s mode rest with
  | case1 mode rest =>
    obtain ⟨rfl, -⟩ := Prod.mk.inj (Option.some.inj h)
    exact hmode
  | case2 s mode key nicks rest ih =>
    apply ih _ h
    rw [Mode.Wf, strlcpy, KEYLEN, length_take]
    omega
  | case3 => simp at h
  | case4 s mode limit nicks rest ih => exact ih hmode h
  | case5 => simp at h
  | case6 c s mode rest hk hl ih => exact ih hmode h

theorem wf_keptMode {rule : TsRule} {mode old : Mode} (hmode : mode.Wf) (hold : old.Wf) :
    (keptMode rule mode old).Wf := by
  unfold keptMode
  split
  · exact hold
  · split
    · rw [Mode.Wf]
      dsimp only
      split
      · exact hold
      · exact hmode
    · exact hmode

@[simp] theorem toLimit_limitToInt (limit : Fin 4294967296) : toLimit (limitToInt limit) =
  limit := by
  rw [toLimit, limitToInt, BitVec.ofInt_toInt]

theorem toInt_bounds (b : BitVec 32) : -2147483648 ≤ b.toInt ∧ b.toInt < 2147483648 := by
  have hlow := BitVec.le_toInt b
  have hhigh := BitVec.toInt_lt (x := b)
  norm_num at hlow hhigh
  exact ⟨hlow, hhigh⟩

theorem limitToInt_bounds (limit : Fin 4294967296) :
    -2147483648 ≤ limitToInt limit ∧ limitToInt limit < 2147483648 := by
  apply toInt_bounds

theorem toLimit_dText (limit : Fin 4294967296) :
    toLimit (atoi (dText (limitToInt limit))) = limit := by
  obtain ⟨hlow, hhigh⟩ := limitToInt_bounds limit
  rw [atoi_dText hlow hhigh, toLimit_limitToInt]

theorem readModes_letters (fs : List SimpleMode) (tail : CStr) (mode : Mode) (rest : List CStr) :
    readModes (fs.map SimpleMode.letter ++ tail) mode rest =
      readModes tail { mode with mode := mode.mode ∪ fs.toFinset } rest := by
  induction fs generalizing mode with
  | nil => simp
  | cons f fs ih =>
    have hk : f.letter ≠ 'k' := by cases f <;> decide
    have hl : f.letter ≠ 'l' := by cases f <;> decide
    rw [map_cons, cons_append, readModes, ih]
    · congr 1
      simp
    · exact hk
    · exact hl

/-- The letters `l` and `k` behind the simple modes. -/
def paramLetters (mode : Mode) : CStr :=
  (if mode.limit ≠ 0 then ['l'] else []) ++ (if mode.key ≠ [] then ['k'] else [])

/-- The mode string of `channel_modes`. -/
def modeText (mode : Mode) : CStr :=
  '+' :: ((channelFlags.filter fun f => decide (f ∈ mode.mode)).map SimpleMode.letter ++
    paramLetters mode)

theorem channelModes_of_server {dir : Directory} {chptr : Channel} {client : Cid}
    (h : (dir.clients client).isServer = true) :
    channelModes dir chptr client =
      (modeText chptr.mode, words (modeParams chptr.mode.limit chptr.mode.key)) := by
  simp only [channelModes, h, Bool.or_true, and_true, modeText, paramLetters, modeParams,
    words_append]
  congr 1
  · simp
  · congr 1
    · split <;> simp_all
    · split <;> simp_all

theorem toFinset_channelFlags_filter (modes : Finset SimpleMode) :
    (channelFlags.filter fun f => decide (f ∈ modes)).toFinset = modes := by
  ext f
  have hall : f ∈ channelFlags := by cases f <;> decide
  simp [hall]

theorem readModes_plus (s : CStr) (mode : Mode) (rest : List CStr) :
    readModes ('+' :: s) mode rest = readModes s mode rest := by
  have h : mode.mode ∪ (simpleModeOf '+').toFinset = mode.mode := by
    have hnone : simpleModeOf '+' = none := by decide
    simp [hnone]
  rw [readModes, h]
  · decide
  · decide

theorem readModes_modeText {mode : Mode} (hmode : mode.Wf) (nicks : CStr) :
    readModes (modeText mode) Mode.zero (modeParams mode.limit mode.key ++ [nicks]) =
      some (mode, [nicks]) := by
  have hkey : strlcpy mode.key KEYLEN = mode.key := take_of_length_le (by
    rw [Mode.Wf] at hmode
    omega)
  rw [modeText, readModes_plus, readModes_letters, toFinset_channelFlags_filter]
  obtain ⟨flags, limit, key⟩ := mode
  dsimp only at hkey
  by_cases hl : limit = 0
  · by_cases hk : key = []
    · simp [paramLetters, modeParams, hl, hk, readModes, Mode.zero]
    · simp [paramLetters, modeParams, hl, hk, readModes, Mode.zero, hkey]
  · by_cases hk : key = []
    · simp [paramLetters, modeParams, hl, hk, readModes, Mode.zero, toLimit_dText]
    · simp [paramLetters, modeParams, hl, hk, readModes, Mode.zero, toLimit_dText, hkey]

theorem readModes_modeText_none {mode : Mode} {params : List CStr}
    (hparams : modeParams mode.limit mode.key = params) (hne : params ≠ []) :
    readModes (modeText mode) Mode.zero params = none := by
  rw [modeText, readModes_plus, readModes_letters, ← hparams]
  obtain ⟨flags, limit, key⟩ := mode
  dsimp only at hparams ⊢
  by_cases hl : limit = 0
  · by_cases hk : key = []
    · exact absurd (by simp [← hparams, modeParams, hl, hk]) hne
    · simp [paramLetters, modeParams, hl, hk, readModes]
  · by_cases hk : key = []
    · simp [paramLetters, modeParams, hl, hk, readModes]
    · simp [paramLetters, modeParams, hl, hk, readModes]

theorem modeText_noNul (mode : Mode) : '\x00' ∉ modeText mode := by
  have hletters : ∀ f : SimpleMode, f.letter ≠ '\x00' := by
    intro f
    cases f <;> decide
  simp only [modeText, paramLetters, mem_cons, mem_append, mem_map, not_or]
  refine ⟨by decide, ?_, ?_, ?_⟩
  · rintro ⟨f, -, hf⟩
    exact hletters f hf
  · split <;> decide
  · split <;> decide

theorem modeText_noBlank (mode : Mode) : ' ' ∉ modeText mode := by
  have hletters : ∀ f : SimpleMode, f.letter ≠ ' ' := by
    intro f
    cases f <;> decide
  simp only [modeText, paramLetters, mem_cons, mem_append, mem_map, not_or]
  refine ⟨by decide, ?_, ?_, ?_⟩
  · rintro ⟨f, -, hf⟩
    exact hletters f hf
  · split <;> decide
  · split <;> decide

theorem isWord_modeText (mode : Mode) : IsWord (modeText mode) where
  ne := by simp [modeText]
  noBlank := modeText_noBlank mode
  noColon := by simp [modeText]

theorem length_modeText_le (mode : Mode) : (modeText mode).length ≤ 9 := by
  have hflags : (channelFlags.filter fun f => decide (f ∈ mode.mode)).length ≤ 6 :=
    length_filter_le _ _
  have hparams : (paramLetters mode).length ≤ 2 := by
    unfold paramLetters
    split <;> split <;> simp
  simp only [modeText, length_cons, length_append, length_map]
  omega

/-! ### The nick list -/

theorem nickWords_nil : nickWords [] = [] := by simp [nickWords]

theorem nickWords_cons {w : CStr} (hne : w ≠ []) (hw : ' ' ∉ w) (s : CStr) :
    nickWords (w ++ ' ' :: s) = w :: nickWords s := by
  have hsplit : (w ++ ' ' :: s).splitOnP (· == ' ') = w :: s.splitOnP (· == ' ') := by
    apply splitOnP_append_cons_of_forall_mem
    · intro c hc
      have hblank : c ≠ ' ' := fun h => hw (h ▸ hc)
      simpa using hblank
    · rfl
  simp [nickWords, hsplit, hne]

theorem nickWords_single {w : CStr} (hne : w ≠ []) (hw : ' ' ∉ w) : nickWords w = [w] := by
  have hsplit : w.splitOnP (· == ' ') = [w] := by
    apply splitOnP_eq_singleton
    intro c hc
    have hblank : c ≠ ' ' := fun h => hw (h ▸ hc)
    simpa using hblank
  simp [nickWords, hsplit, hne]

theorem nickWords_words {ws : List CStr} (hws : ∀ w ∈ ws, w ≠ [] ∧ ' ' ∉ w) :
    nickWords (words ws) = ws := by
  induction ws with
  | nil => exact nickWords_nil
  | cons w ws ih =>
    obtain ⟨hne, hblank⟩ := hws w (by simp)
    rw [words_cons, nickWords_cons hne hblank, ih fun v hv => hws v (mem_cons_of_mem _ hv)]

theorem nickWords_words_dropLast {ws : List CStr} (hws : ∀ w ∈ ws, w ≠ [] ∧ ' ' ∉ w) :
    nickWords (words ws).dropLast = ws := by
  induction ws with
  | nil => exact nickWords_nil
  | cons w ws ih =>
    obtain ⟨hne, hblank⟩ := hws w (by simp)
    have ih' := ih fun v hv => hws v (mem_cons_of_mem _ hv)
    cases ws with
    | nil =>
      have hlast : (words [w]).dropLast = w := by simp [words]
      rw [hlast]
      exact nickWords_single hne hblank
    | cons v vs =>
      have hdrop : (words (w :: v :: vs)).dropLast = w ++ ' ' ::
          (words (v :: vs)).dropLast := by
        rw [words_cons, dropLast_append_of_ne_nil (by simp),
          dropLast_cons_of_ne_nil (by simp)]
      rw [hdrop, nickWords_cons hne hblank, ih']

/-! ### Status prefixes -/

def opFlags : Finset ChFlag := {.chanop, .halfop, .voice}

/-- A name that no status prefix can be taken for. -/
def NoPrefix (name : CStr) : Prop :=
  name.head? ≠ some '@' ∧ name.head? ≠ some '%' ∧ name.head? ≠ some '+'

theorem readPrefix_name {name : CStr} (h : NoPrefix name) : readPrefix name = (∅, name) := by
  obtain ⟨hat, hpercent, hplus⟩ := h
  cases name with
  | nil => rfl
  | cons c s =>
    rw [readPrefix]
    · rintro t ht
      exact hat (by rw [(List.cons.inj ht).1]; rfl)
    · rintro t ht
      exact hpercent (by rw [(List.cons.inj ht).1]; rfl)
    · rintro t ht
      exact hplus (by rw [(List.cons.inj ht).1]; rfl)

theorem readPrefix_statusPrefix {name : CStr} (h : NoPrefix name) (fl : Finset ChFlag) :
    readPrefix (statusPrefix fl ++ name) = (fl ∩ opFlags, name) := by
  have hname := readPrefix_name h
  unfold statusPrefix
  by_cases ho : ChFlag.chanop ∈ fl <;> by_cases hh : ChFlag.halfop ∈ fl <;>
    by_cases hv : ChFlag.voice ∈ fl <;>
    simp only [ho, hh, hv, if_true, if_false, nil_append, cons_append, append_nil,
      readPrefix, hname, Prod.mk.injEq, and_true] <;>
    · ext f
      cases f <;> simp_all [opFlags]

theorem length_statusPrefix_le (fl : Finset ChFlag) : (statusPrefix fl).length ≤ 3 := by
  unfold statusPrefix
  split <;> split <;> split <;> simp

theorem statusPrefix_noBlank (fl : Finset ChFlag) : ' ' ∉ statusPrefix fl := by
  unfold statusPrefix
  split <;> split <;> split <;> decide

end Ircd
