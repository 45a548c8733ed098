import Mathlib.Data.List.Basic

/-!
Bytes and C strings as the daemon handles them.

A C string is the list of its characters, without the terminating NUL. The
case tables are the ones of `match.c`: they fold `[`, `\`, `]` and `^` onto
`{`, `|`, `}` and `~`.
-/

namespace Ircd

/-- A C string, without its terminating NUL. -/
abbrev CStr := List Char

/-- `ToLower`: the table `ToLowerTab`. -/
def toLower (c : Char) : Char :=
  if 0x41 ≤ c.toNat ∧ c.toNat ≤ 0x5e then Char.ofNat (c.toNat + 0x20) else c

/-- `ToUpper`: the table `ToUpperTab`. -/
def toUpper (c : Char) : Char :=
  if 0x61 ≤ c.toNat ∧ c.toNat ≤ 0x7e then Char.ofNat (c.toNat - 0x20) else c

/-- `IsDigit`. -/
def isDigit (c : Char) : Bool := decide ('0' ≤ c) && decide (c ≤ '9')

/-- `IsSpace`: the `SPACE_C` attribute. -/
def isSpace (c : Char) : Bool := (decide (9 ≤ c.toNat) && decide (c.toNat ≤ 13)) || c == ' '

/-- `irccmp(s1, s2) == 0`. -/
def ircEq (s t : CStr) : Bool := s.map toUpper == t.map toUpper

/-- `strlcpy` into a buffer of `size` bytes, also `xstrldup` with that bound. -/
def strlcpy (s : CStr) (size : Nat) : CStr := s.take (size - 1)

/-- `strchr`: the text before the first `c` and the text behind it. -/
def strchr (c : Char) : CStr → Option (CStr × CStr)
  | [] => none
  | d :: s =>
    if d = c then some ([], s)
    else (strchr c s).map fun (before, after) => (d :: before, after)

/-- `strrchr`: the text before the last `c` and the text behind it. -/
def strrchr (c : Char) : CStr → Option (CStr × CStr)
  | [] => none
  | d :: s =>
    match strrchr c s with
    | some (before, after) => some (d :: before, after)
    | none => if d = c then some ([], s) else none

/-! ### Numbers -/

def digitVal (c : Char) : Nat := c.toNat - '0'.toNat

/-- The value of the leading decimal digits. -/
def readDigits : Nat → CStr → Nat
  | acc, [] => acc
  | acc, c :: s => if isDigit c then readDigits (acc * 10 + digitVal c) s else acc

/-- `LONG_MAX`. -/
def LONG_MAX : Nat := 0x7fffffffffffffff

/-- `ULONG_MAX`. -/
def ULONG_MAX : Nat := 0xffffffffffffffff

/-- A positive number in a `long`, which saturates. -/
def longOfNat (v : Nat) : Int := if v ≤ LONG_MAX then v else LONG_MAX

/-- `strtol(s, NULL, 10)` with a 64 bit `long`: blanks, a sign, digits. -/
def strtol (s : CStr) : Int :=
  match s.dropWhile isSpace with
  | '-' :: ds => if readDigits 0 ds ≤ LONG_MAX then -(readDigits 0 ds : Int) else -LONG_MAX - 1
  | '+' :: ds => longOfNat (readDigits 0 ds)
  | ds => longOfNat (readDigits 0 ds)

/-- `atoi`: the `long` cut to 32 bits. -/
def atoi (s : CStr) : Int := (BitVec.ofInt 32 (strtol s)).toInt

/-- `strtoul(s, &after, 10)` with a 64 bit `unsigned long`: the value and what
follows it. Without digits nothing is consumed. -/
def strtoul (s : CStr) : Nat × CStr :=
  let (neg, ds) :=
    match s.dropWhile isSpace with
    | '-' :: ds => (true, ds)
    | '+' :: ds => (false, ds)
    | ds => (false, ds)
  match ds with
  | [] => (0, s)
  | d :: _ =>
    if isDigit d then
      let v := readDigits 0 ds
      (if ULONG_MAX < v then ULONG_MAX
        else if neg then (ULONG_MAX + 1 - v) % (ULONG_MAX + 1) else v,
        ds.dropWhile isDigit)
    else (0, s)

/-- The conversion of an `unsigned long` to `int`. -/
def toInt32 (v : Nat) : Int := (BitVec.ofNat 32 v).toInt

/-! ### Lemmas -/

@[simp] theorem strchr_nil (c : Char) : strchr c [] = none := rfl

theorem strchr_eq_none_iff {c : Char} {s : CStr} : strchr c s = none ↔ c ∉ s := by
  induction s with
  | nil => simp
  | cons d s ih =>
    by_cases h : d = c
    · simp [strchr, h]
    · simp [strchr, h, ih, Ne.symm h]

theorem strrchr_eq_none_iff {c : Char} {s : CStr} : strrchr c s = none ↔ c ∉ s := by
  induction s with
  | nil => simp [strrchr]
  | cons d s ih =>
    cases hs : strrchr c s with
    | some b =>
      have : c ∈ s := by
        by_contra hc
        simp [ih.mpr hc] at hs
      simp [strrchr, hs, this]
    | none =>
      have : c ∉ s := ih.mp hs
      by_cases h : d = c
      · simp [strrchr, hs, h]
      · simp [strrchr, hs, h, this, Ne.symm h]

theorem notMem_of_mem_splitOn {c : Char} {s piece : CStr} (h : piece ∈ s.splitOn c) :
    c ∉ piece := by
  induction s generalizing piece with
  | nil =>
    rw [List.splitOn_nil, List.mem_singleton] at h
    rw [h]
    exact List.not_mem_nil
  | cons d s ih =>
    rw [List.splitOn_cons_eq_if_modifyHead] at h
    split at h
    · rcases List.mem_cons.mp h with rfl | h
      · exact List.not_mem_nil
      · exact ih h
    · rename_i hd
      obtain ⟨first, rest, hsplit⟩ := List.exists_cons_of_ne_nil (List.splitOn_ne_nil c s)
      rw [hsplit, List.modifyHead_cons] at h
      rw [hsplit] at ih
      rcases List.mem_cons.mp h with rfl | h
      · rw [List.mem_cons, not_or]
        refine ⟨fun heq => hd (by rw [← heq]; exact beq_self_eq_true c), ih List.mem_cons_self⟩
      · exact ih (List.mem_cons_of_mem _ h)

theorem strchr_append {c : Char} {s t : CStr} (h : c ∉ s) : strchr c (s ++ c :: t) = some
    (s, t) := by
  induction s with
  | nil => simp [strchr]
  | cons d s ih =>
    simp only [List.mem_cons, not_or] at h
    simp [strchr, Ne.symm h.1, ih h.2]

theorem strchr_eq_some {c : Char} {s before after : CStr} (h : strchr c s = some (before, after)) :
    s = before ++ c :: after ∧ c ∉ before := by
  induction s generalizing before with
  | nil => simp at h
  | cons d s ih =>
    by_cases hd : d = c
    · simp only [strchr, hd, if_true, Option.some.injEq, Prod.mk.injEq] at h
      obtain ⟨rfl, rfl⟩ := h
      simp [hd]
    · simp only [strchr, hd, if_false, Option.map_eq_some_iff, Prod.exists, Prod.mk.injEq] at h
      obtain ⟨b, a, hs, rfl, rfl⟩ := h
      obtain ⟨rfl, hnot⟩ := ih hs
      simp [hnot, Ne.symm hd]

/-! ### Case -/

theorem toNat_ofNat {n : Nat} (h : n.isValidChar) : (Char.ofNat n).toNat = n := by
  unfold Char.ofNat
  rw [dif_pos h]
  rfl

theorem ircEq_iff {s t : CStr} : ircEq s t = true ↔ s.map toUpper = t.map toUpper := by
  simp [ircEq]

theorem ircEq_refl (s : CStr) : ircEq s s = true := ircEq_iff.mpr rfl

theorem ircEq_symm {s t : CStr} (h : ircEq s t = true) : ircEq t s = true :=
  ircEq_iff.mpr (ircEq_iff.mp h).symm

theorem ircEq_trans {s t u : CStr} (h₁ : ircEq s t = true) (h₂ : ircEq t u = true) :
    ircEq s u = true :=
  ircEq_iff.mpr ((ircEq_iff.mp h₁).trans (ircEq_iff.mp h₂))

theorem toLower_toUpper (c : Char) : toLower (toUpper c) = toLower c := by
  by_cases h : 0x61 ≤ c.toNat ∧ c.toNat ≤ 0x7e
  · have hvalid : (c.toNat - 0x20).isValidChar := .inl (by omega)
    have hnat := toNat_ofNat hvalid
    have hlow : toLower c = c := if_neg (by omega)
    rw [hlow, toUpper, if_pos h, toLower, hnat, if_pos (by omega),
      Nat.sub_add_cancel (by omega)]
    exact Char.ofNat_toNat c
  · rw [toUpper, if_neg h]

theorem map_toLower_of_ircEq {s t : CStr} (h : ircEq s t = true) :
    s.map toLower = t.map toLower := by
  have hs : ∀ s : CStr, s.map toLower = (s.map toUpper).map toLower := fun s => by
    simp [List.map_map, Function.comp_def, toLower_toUpper]
  rw [hs s, hs t, ircEq_iff.mp h]

theorem toUpper_eq_iff {c d : Char} (hc : c.toNat < 0x41) : toUpper d = c ↔ d = c := by
  constructor
  · intro h
    unfold toUpper at h
    split at h
    · rename_i hrange
      have hnat := congrArg Char.toNat h
      rw [toNat_ofNat (.inl (by omega))] at hnat
      omega
    · exact h
  · rintro rfl
    exact if_neg (by omega)

theorem mem_iff_of_ircEq {s t : CStr} {c : Char} (hc : c.toNat < 0x41) (h : ircEq s t = true) :
    c ∈ s ↔ c ∈ t := by
  have hs : ∀ s : CStr, c ∈ s ↔ c ∈ s.map toUpper := fun s => by
    simp [List.mem_map, toUpper_eq_iff hc]
  rw [hs s, hs t, ircEq_iff.mp h]

theorem head?_iff_of_ircEq {s t : CStr} {c : Char} (hc : c.toNat < 0x41) (h : ircEq s t = true) :
    s.head? = some c ↔ t.head? = some c := by
  have hs : ∀ s : CStr, s.head? = some c ↔ (s.map toUpper).head? = some c := by
    intro s
    cases s with
    | nil => simp
    | cons d s => simp [toUpper_eq_iff hc]
  rw [hs s, hs t, ircEq_iff.mp h]

end Ircd
