import Ircd.Line

/-!
`vsprintf_irc`, which prints the lines of the protocol with digits from a table.

- `scratchDigits_eq`: the groups of three digits that `%d` and `%u` write backwards.
- `printed_lu`, `printed_d`: what `%lu` and `%d` print for every value.
- `vsprintf_irc_eq_sprintf`: on the formats that it is made for, and in the documented range
  of `%lu`, the text and the length are those of the standard `sprintf`.
-/

namespace Ircd

/-! ### The function -/

/-- An argument, as `va_arg` reads it. A `char` is passed as an `int`. -/
inductive VaArg where
  | string (s : CStr)
  | int (v : BitVec 32)
  | ulong (v : BitVec 64)
  deriving DecidableEq, Repr

/-- What is written in front of `str`, and `bytes`. -/
structure Printed where
  str : CStr := []
  bytes : Nat := 0
  deriving DecidableEq, Repr

/-- `*str++ = c; ++bytes;`. -/
def Printed.put (o : Printed) (c : Char) : Printed := ⟨o.str ++ [c], o.bytes + 1⟩

/-- A loop that copies characters and counts each. -/
def Printed.copy (o : Printed) (s : CStr) : Printed := s.foldl Printed.put o

def digit (d : Nat) : Char := Char.ofNat (d + '0'.toNat)

/-- `atoi_tab[i]`: for each number below a thousand its three digits and a NUL. -/
def atoiTab (i : Nat) : Char :=
  match i % 4 with
  | 0 => digit (i / 400)
  | 1 => digit (i / 40 % 10)
  | 2 => digit (i / 4 % 10)
  | _ => '\x00'

/-- The loop of `%d` and `%u`, which writes groups of digits from the end of the scratch buffer
forwards; `s` stands behind the place that is written to. -/
def scratchDigits (v1 : Nat) (s : CStr) : CStr :=
  let v2 := v1 / 1000
  let ap := 2 + ((v1 - 1000 * v2) <<< 2)
  let s := atoiTab (ap - 2) :: atoiTab (ap - 1) :: atoiTab ap :: s
  if 0 < v2 then scratchDigits v2 s else s
termination_by v1
decreasing_by
  rename_i h
  simp only [v2] at h ⊢
  omega

/-- The number in the scratch buffer without its leading zeros; there is none to copy if all
digits are zeros. -/
def Printed.number (o : Printed) (v1 : Nat) : Option Printed :=
  match (scratchDigits v1 []).dropWhile (· == '0') with
  | [] => none
  | s => some (o.copy s)

/-- The three characters at a place of the table. -/
def threeOf (v : Nat) : CStr :=
  [atoiTab (v <<< 2), atoiTab ((v <<< 2) + 1), atoiTab ((v <<< 2) + 2)]

/-- The nine digits of `%lu`. -/
def Printed.nine (o : Printed) (v1 : Nat) : Printed :=
  let v2 := v1 / 1000000
  let str := o.str ++ threeOf v2
  let v1 := v1 - v2 * 1000000
  let v2 := v1 / 1000
  let str := str ++ threeOf v2
  let v1 := v1 - v2 * 1000
  ⟨str ++ threeOf v1, o.bytes + 9⟩

/-- `%lu`. -/
def Printed.lu (o : Printed) (v1 : Nat) : Printed :=
  if v1 = 0 then o.put '0'
  else if 999999999 < v1 then
    let v2 := v1 / 1000000000
    (o.put (Char.ofNat (('0'.toNat + v2) % 256))).nine (v1 - v2 * 1000000000)
  else o.nine v1

/-- `%d`. -/
def Printed.d (o : Printed) (v1 : BitVec 32) : Option Printed :=
  if v1.toInt ≤ 0 then
    if v1 = 0 then some (o.put '0')
    else (o.put '-').number (-v1).toNat
  else o.number v1.toNat

/-- `%u`. -/
def Printed.u (o : Printed) (v1 : BitVec 32) : Option Printed :=
  if v1 = 0 then some (o.put '0') else o.number v1.toNat

/-- `%t`, two digits of an `unsigned int`. -/
def Printed.t (o : Printed) (v1 : BitVec 32) : Printed :=
  (o.put (Char.ofNat ((v1.toNat / 10 + '0'.toNat) % 256))).put (digit (v1.toNat % 10))

/-- `vsprintf_irc`, with the `vsprintf` that it falls back on for other formats. There is no
result where an argument is missing or of another type, or where the format ends in a `%`. -/
def vsprintfIrc (vsprintf : CStr → List VaArg → Option (CStr × Nat)) :
    CStr → List VaArg → Printed → Option Printed
  | [], _, o => some o
  | c :: format, args, o =>
    if c ≠ '%' then vsprintfIrc vsprintf format args (o.put c)
    else
      match format, args with
      | 's' :: format, .string s :: args => vsprintfIrc vsprintf format args (o.copy s)
      | 'c' :: format, .int v :: args =>
        vsprintfIrc vsprintf format args (o.put (Char.ofNat (v.toNat % 256)))
      | 'l' :: 'u' :: format, .ulong v :: args => vsprintfIrc vsprintf format args (o.lu v.toNat)
      | 't' :: format, .int v :: args => vsprintfIrc vsprintf format args (o.t v)
      | 'd' :: format, .int v :: args => (o.d v).bind (vsprintfIrc vsprintf format args)
      | 'u' :: format, .int v :: args => (o.u v).bind (vsprintfIrc vsprintf format args)
      | '%' :: format, args => vsprintfIrc vsprintf format args (o.put '%')
      | [], _ | 's' :: _, _ | 'c' :: _, _ | 'l' :: 'u' :: _, _ | 't' :: _, _ | 'd' :: _, _
      | 'u' :: _, _ => none
      | format, args =>
        -- the rest of the format is left to `vsprintf`
        (vsprintf ('%' :: format) args).map fun (s, ret) => ⟨o.str ++ s, o.bytes + ret⟩

/-! ### Digits -/

theorem digitChar_eq {d : Nat} (h : d < 10) : Nat.digitChar d = Char.ofNat (d + '0'.toNat) := by
  interval_cases d <;> rfl

theorem padDigits_add (n k v : Nat) :
    padDigits (n + k) v = padDigits n (v / 10 ^ k) ++ padDigits k v := by
  induction k generalizing v with
  | zero => simp [padDigits]
  | succ k ih =>
    rw [← Nat.add_assoc, padDigits, ih, padDigits, Nat.div_div_eq_div_mul, ← Nat.pow_succ',
      List.append_assoc]

theorem padDigits_mod (k v : Nat) : padDigits k (v % 10 ^ k) = padDigits k v := by
  induction k generalizing v with
  | zero => rfl
  | succ k ih =>
    have hlast : v % 10 ^ (k + 1) % 10 = v % 10 := by
      rw [Nat.pow_succ']
      exact Nat.mod_mul_right_mod v 10 (10 ^ k)
    have hrest : v % 10 ^ (k + 1) / 10 = v / 10 % 10 ^ k := by
      rw [Nat.pow_succ']
      exact Nat.mod_mul_right_div_self v 10 (10 ^ k)
    rw [padDigits, hlast, hrest, ih, padDigits]

theorem threeOf_eq {v : Nat} (h : v < 1000) : threeOf v = padDigits 3 v := by
  have hshift : v <<< 2 = 4 * v := by
    rw [Nat.shiftLeft_eq]
    omega
  have h₀ : 4 * v % 4 = 0 := by omega
  have h₁ : (4 * v + 1) % 4 = 1 := by omega
  have h₂ : (4 * v + 2) % 4 = 2 := by omega
  have hfirst : 4 * v / 400 = v / 10 / 10 % 10 := by omega
  have hsecond : (4 * v + 1) / 40 % 10 = v / 10 % 10 := by omega
  have hthird : (4 * v + 2) / 4 % 10 = v % 10 := by omega
  simp only [threeOf, hshift, atoiTab, h₀, h₁, h₂, hfirst, hsecond, hthird, digit, padDigits,
    List.nil_append, List.cons_append]

theorem group_eq (v : Nat) (s : CStr) :
    atoiTab (2 + ((v - 1000 * (v / 1000)) <<< 2) - 2) ::
      atoiTab (2 + ((v - 1000 * (v / 1000)) <<< 2) - 1) ::
      atoiTab (2 + ((v - 1000 * (v / 1000)) <<< 2)) :: s = padDigits 3 v ++ s := by
  have hmod : v - 1000 * (v / 1000) = v % 1000 := by omega
  have hgroup := (threeOf_eq (Nat.mod_lt v (by decide : 0 < 1000))).trans (padDigits_mod 3 v)
  have h₁ : 2 + ((v % 1000) <<< 2) - 2 = (v % 1000) <<< 2 := by omega
  have h₂ : 2 + ((v % 1000) <<< 2) - 1 = (v % 1000) <<< 2 + 1 := by omega
  have h₃ : 2 + ((v % 1000) <<< 2) = (v % 1000) <<< 2 + 2 := by omega
  rw [hmod, h₁, h₂, h₃, ← hgroup]
  rfl

theorem scratchDigits_eq (v : Nat) (s : CStr) :
    ∃ n, v < 10 ^ n ∧ scratchDigits v s = padDigits n v ++ s := by
  induction v using Nat.strongRecOn generalizing s with
  | ind v ih =>
    rw [scratchDigits, group_eq]
    split
    · rename_i hmore
      obtain ⟨n, hn, heq⟩ := ih (v / 1000) (by omega) (padDigits 3 v ++ s)
      refine ⟨n + 3, ?_, ?_⟩
      · rw [Nat.pow_add]
        omega
      · have hadd : padDigits (n + 3) v = padDigits n (v / 1000) ++ padDigits 3 v :=
          padDigits_add n 3 v
        rw [heq, hadd, List.append_assoc]
    · exact ⟨3, by omega, rfl⟩

theorem dropWhile_padDigits_zero (n : Nat) : (padDigits n 0).dropWhile (· == '0') = [] := by
  induction n with
  | zero => rfl
  | succ n ih =>
    rw [padDigits, List.dropWhile_append, ih]
    rfl

theorem dropWhile_padDigits {n v : Nat} (hpos : 0 < v) (h : v < 10 ^ n) :
    (padDigits n v).dropWhile (· == '0') = Nat.toDigits 10 v := by
  induction n generalizing v with
  | zero =>
    rw [Nat.pow_zero] at h
    omega
  | succ n ih =>
    have hlast : Nat.digitChar (v % 10) = Char.ofNat (v % 10 + '0'.toNat) :=
      digitChar_eq (Nat.mod_lt _ (by decide))
    rw [padDigits, Nat.toDigits_eq_if (by decide), List.dropWhile_append, ← hlast]
    split
    · rename_i hnil
      have hsmall : v / 10 = 0 := by
        by_contra hne
        rw [Nat.pow_succ] at h
        refine dropWhile_padDigits_ne_nil (Nat.pos_of_ne_zero hne) ?_ (List.isEmpty_iff.mp hnil)
        omega
      have hlt : v < 10 := by omega
      have hdigit : (Nat.digitChar v == '0') = false := by
        rw [beq_eq_false_iff_ne, ne_eq, Nat.digitChar_eq_zero]
        omega
      rw [if_pos hlt, Nat.mod_eq_of_lt hlt, List.dropWhile_cons, hdigit]
      rfl
    · rename_i hcons
      have hquot : v / 10 ≠ 0 := by
        intro hzero
        rw [hzero, dropWhile_padDigits_zero] at hcons
        exact hcons rfl
      rw [Nat.pow_succ] at h
      rw [ih (by omega) (by omega), if_neg (by omega)]

theorem padDigits_eq_toDigits {n v : Nat} (hlow : 10 ^ n ≤ v) (h : v < 10 ^ (n + 1)) :
    padDigits (n + 1) v = Nat.toDigits 10 v := by
  induction n generalizing v with
  | zero =>
    have hlt : v < 10 := by simpa using h
    rw [Nat.toDigits_of_lt_base hlt, digitChar_eq hlt]
    simp [padDigits, Nat.mod_eq_of_lt hlt]
  | succ n ih =>
    rw [Nat.pow_succ] at hlow h
    have hpow : 0 < 10 ^ n := Nat.pow_pos (by decide)
    have hlast : Nat.digitChar (v % 10) = Char.ofNat (v % 10 + '0'.toNat) :=
      digitChar_eq (Nat.mod_lt _ (by decide))
    have hdigits := Nat.toDigits_of_base_le (by decide : 1 < 10) (by omega : 10 ≤ v)
    rw [padDigits, ih (by omega) (by omega), hdigits, hlast]

/-! ### What is printed for a number -/

theorem copy_eq (o : Printed) (s : CStr) : o.copy s = ⟨o.str ++ s, o.bytes + s.length⟩ := by
  induction s generalizing o with
  | nil => simp [Printed.copy]
  | cons c s ih =>
    have hcons : o.copy (c :: s) = (o.put c).copy s := rfl
    rw [hcons, ih]
    simp [Printed.put]
    omega

theorem number_eq (o : Printed) {v : Nat} (hpos : 0 < v) :
    o.number v = some (o.copy (Nat.toDigits 10 v)) := by
  obtain ⟨n, hn, hdigits⟩ := scratchDigits_eq v []
  rw [List.append_nil] at hdigits
  rw [Printed.number, hdigits, dropWhile_padDigits hpos hn]
  split
  · rename_i hnil
    exact absurd hnil Nat.toDigits_ne_nil
  · rfl

theorem nine_eq (o : Printed) {v : Nat} (h : v < 1000000000) :
    o.nine v = o.copy (padDigits 9 v) := by
  have hrest : v - v / 1000000 * 1000000 = v % 1000000 := by omega
  have hlast : v % 1000000 - v % 1000000 / 1000 * 1000 = v % 1000 := by omega
  have hnine : padDigits 9 v = padDigits 3 (v / 1000000) ++ padDigits 6 v := padDigits_add 3 6 v
  have hsix : padDigits 6 (v % 1000000) = padDigits 3 (v % 1000000 / 1000) ++
      padDigits 3 (v % 1000000) := padDigits_add 3 3 _
  have hmod : padDigits 6 (v % 1000000) = padDigits 6 v := padDigits_mod 6 v
  have hmod' : padDigits 3 (v % 1000000) = padDigits 3 (v % 1000) := by
    have h₁ : padDigits 3 (v % 1000000 % 1000) = padDigits 3 (v % 1000000) := padDigits_mod 3 _
    have h₂ : v % 1000000 % 1000 = v % 1000 := by omega
    rw [← h₁, h₂]
  unfold Printed.nine
  dsimp only
  rw [hrest, hlast, threeOf_eq (by omega), threeOf_eq (by omega), threeOf_eq (by omega), copy_eq,
    length_padDigits, hnine, ← hmod, hsix, hmod']
  simp only [List.append_assoc]

theorem printed_lu (o : Printed) (v : Nat) : o.lu v = o.copy (luText v) := by
  unfold Printed.lu luText
  split
  · rfl
  · split
    · have hrest : v - v / 1000000000 * 1000000000 = v % 1000000000 := by omega
      dsimp only
      rw [hrest]
      exact nine_eq _ (Nat.mod_lt _ (by decide))
    · exact nine_eq o (by omega)

theorem printed_d (o : Printed) (v : BitVec 32) : o.d v = some (o.copy (dText v.toInt)) := by
  have hlow := BitVec.le_toInt v
  have hhigh := BitVec.toInt_lt (x := v)
  unfold Printed.d dText
  by_cases hzero : v = 0
  · subst hzero
    rfl
  · have hne : v.toInt ≠ 0 := by
      intro h
      exact hzero (BitVec.eq_of_toInt_eq h)
    have hcases := BitVec.toInt_eq_toNat_cond v
    by_cases hneg : v.toInt ≤ 0
    · have habs : (-v).toNat = v.toInt.natAbs := by
        rw [BitVec.toNat_neg]
        omega
      rw [if_pos hneg, if_neg hzero, if_neg hne, if_pos (by omega), habs, number_eq _ (by omega),
        dropWhile_padDigits (by omega) (by omega)]
      rfl
    · have habs : v.toNat = v.toInt.natAbs := by omega
      rw [if_neg hneg, if_neg hne, if_neg (by omega), habs, number_eq _ (by omega),
        dropWhile_padDigits (by omega) (by omega)]

theorem printed_u (o : Printed) (v : BitVec 32) :
    o.u v = some (o.copy (Nat.toDigits 10 v.toNat)) := by
  unfold Printed.u
  split
  · rename_i hzero
    rw [hzero]
    rfl
  · rename_i hzero
    apply number_eq
    have hne : v.toNat ≠ 0 := fun h => hzero (BitVec.eq_of_toNat_eq h)
    omega

/-! ### The standard `sprintf` -/

/-- A part of a format, with the argument for it. -/
inductive Directive where
  | text (c : Char)
  | percent
  | string (s : CStr)
  | char (v : BitVec 32)
  | int (v : BitVec 32)
  | unsigned (v : BitVec 32)
  | ulong (v : BitVec 64)
  deriving DecidableEq, Repr

namespace Directive

def format : Directive → CStr
  | text c => [c]
  | percent => ['%', '%']
  | string _ => ['%', 's']
  | char _ => ['%', 'c']
  | int _ => ['%', 'd']
  | unsigned _ => ['%', 'u']
  | ulong _ => ['%', 'l', 'u']

def args : Directive → List VaArg
  | text _ | percent => []
  | string s => [.string s]
  | char v | int v | unsigned v => [.int v]
  | ulong v => [.ulong v]

def output : Directive → CStr
  | text c => [c]
  | percent => ['%']
  | string s => s
  | char v => [Char.ofNat (v.toNat % 256)]
  | int v =>
    if v.toInt < 0 then '-' :: Nat.toDigits 10 v.toInt.natAbs else Nat.toDigits 10 v.toInt.natAbs
  | unsigned v => Nat.toDigits 10 v.toNat
  | ulong v => Nat.toDigits 10 v.toNat

/-- The text is literal, and a number for `%lu` is zero or in the interval of the comment. -/
def Documented : Directive → Prop
  | text c => c ≠ '%'
  | ulong v => v = 0 ∨ 100000000 ≤ v.toNat ∧ v.toNat ≤ 4294967295
  | _ => True

instance : DecidablePred Documented
  | text c => inferInstanceAs (Decidable (c ≠ '%'))
  | ulong v => inferInstanceAs (Decidable (v = 0 ∨ 100000000 ≤ v.toNat ∧ v.toNat ≤ 4294967295))
  | percent | string _ | char _ | int _ | unsigned _ => isTrue trivial

end Directive

/-- `sprintf`. -/
def sprintf (ds : List Directive) : CStr := ds.flatMap Directive.output

theorem luText_eq {v : Nat} (h : v = 0 ∨ 100000000 ≤ v ∧ v ≤ 4294967295) :
    luText v = Nat.toDigits 10 v := by
  unfold luText
  rcases h with rfl | ⟨hlow, hhigh⟩
  · rfl
  · rw [if_neg (by omega)]
    split
    · have hten : padDigits 10 v = padDigits 1 (v / 1000000000) ++ padDigits 9 v :=
        padDigits_add 1 9 v
      have hnine : padDigits 9 (v % 1000000000) = padDigits 9 v := padDigits_mod 9 v
      have hone : padDigits 1 (v / 1000000000) = [Char.ofNat (v / 1000000000 + '0'.toNat)] := by
        have hsmall : v / 1000000000 % 10 = v / 1000000000 := by omega
        rw [padDigits, hsmall]
        rfl
      have hbyte : ('0'.toNat + v / 1000000000) % 256 = v / 1000000000 + '0'.toNat := by
        rw [Nat.add_comm]
        refine Nat.mod_eq_of_lt ?_
        have : '0'.toNat = 48 := rfl
        omega
      rw [hbyte, hnine, ← padDigits_eq_toDigits (n := 9) (by omega) (by omega), hten, hone]
      rfl
    · exact padDigits_eq_toDigits (n := 8) (by omega) (by omega)

theorem dText_eq (v : BitVec 32) : dText v.toInt = (Directive.int v).output := by
  have hlow := BitVec.le_toInt v
  have hhigh := BitVec.toInt_lt (x := v)
  unfold dText
  simp only [Directive.output]
  by_cases hzero : v.toInt = 0
  · rw [if_pos hzero, hzero]
    rfl
  · rw [if_neg hzero, dropWhile_padDigits (by omega) (by omega)]

theorem vsprintfIrc_directive (vsprintf : CStr → List VaArg → Option (CStr × Nat)) (d : Directive)
    (h : d.Documented) (format : CStr) (args : List VaArg) (o : Printed) :
    vsprintfIrc vsprintf (d.format ++ format) (d.args ++ args) o =
      vsprintfIrc vsprintf format args (o.copy d.output) := by
  cases d with
  | text c =>
    have hc : c ≠ '%' := h
    change vsprintfIrc vsprintf (c :: format) args o = vsprintfIrc vsprintf format args (o.put c)
    rw [vsprintfIrc.eq_def]
    exact if_pos hc
  | percent => rfl
  | string s => rfl
  | char v => rfl
  | int v =>
    rw [← dText_eq]
    change (o.d v).bind (vsprintfIrc vsprintf format args) = _
    rw [printed_d, Option.bind_some]
  | unsigned v =>
    change (o.u v).bind (vsprintfIrc vsprintf format args) = _
    rw [printed_u, Option.bind_some]
    rfl
  | ulong v =>
    change vsprintfIrc vsprintf format args (o.lu v.toNat) = _
    have hv : v.toNat = 0 ∨ 100000000 ≤ v.toNat ∧ v.toNat ≤ 4294967295 := by
      rcases h with rfl | h
      · exact Or.inl rfl
      · exact Or.inr h
    rw [printed_lu, luText_eq hv]
    rfl

/-- For every format of literal text, `%%`, `%s`, `%c`, `%d`, `%u` and `%lu`, and all arguments
that it is documented for, `vsprintf_irc` prints what `sprintf` prints and returns its length. -/
theorem vsprintf_irc_eq_sprintf (vsprintf : CStr → List VaArg → Option (CStr × Nat))
    (ds : List Directive) (h : ∀ d ∈ ds, d.Documented) :
    vsprintfIrc vsprintf (ds.flatMap Directive.format) (ds.flatMap Directive.args) {} =
      some ⟨sprintf ds, (sprintf ds).length⟩ := by
  have hall : ∀ o : Printed, vsprintfIrc vsprintf (ds.flatMap Directive.format)
      (ds.flatMap Directive.args) o = some (o.copy (sprintf ds)) := by
    induction ds with
    | nil => exact fun o => rfl
    | cons d ds ih =>
      intro o
      rw [List.flatMap_cons, List.flatMap_cons, vsprintfIrc_directive vsprintf d (h d (by simp)),
        ih fun d' hd' => h d' (List.mem_cons_of_mem d hd')]
      simp [copy_eq, sprintf]
      omega
  rw [hall, copy_eq]
  simp

/-- A line with one of each, the most negative number among them. -/
def oneOfEach : List Directive :=
  [.text ':', .string "a b".toList, .percent, .char 65, .int (BitVec.ofInt 32 (-2147483648)),
    .unsigned 4294967295, .ulong 0, .ulong 1100000000]

theorem vsprintf_irc_eq_sprintf_oneOfEach :
    vsprintfIrc (fun _ _ => none) (oneOfEach.flatMap Directive.format)
      (oneOfEach.flatMap Directive.args) {} =
      some ⟨":a b%A-2147483648429496729501100000000".toList, 38⟩ := by
  have hdocumented : ∀ d ∈ oneOfEach, d.Documented := by decide
  have htext : sprintf oneOfEach = ":a b%A-2147483648429496729501100000000".toList := by
    decide +kernel
  have hall := vsprintf_irc_eq_sprintf (fun _ _ => none) oneOfEach hdocumented
  rw [htext] at hall
  exact hall

end Ircd
