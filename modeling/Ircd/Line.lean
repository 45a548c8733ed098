import Ircd.Text
import Mathlib.Tactic.IntervalCases
import Mathlib.Tactic.Ring

/-!
The lines servers exchange: how `ircsprintf` prints a number and how `parse` and
`string_to_array` take a line apart again.
-/

namespace Ircd

open List

/-- `IRCD_BUFSIZE`. -/
def IRCD_BUFSIZE : Nat := 512

/-- `MAXPARA`. -/
def MAXPARA : Nat := 15

/-! ### Printing -/

/-- The last `n` decimal digits of a number, as the groups of `atoi_tab` give them. -/
def padDigits : Nat → Nat → CStr
  | 0, _ => []
  | n + 1, v => padDigits n (v / 10) ++ [Char.ofNat (v % 10 + '0'.toNat)]

/-- `%lu` of `ircsprintf`: nine digits, and for a larger number the byte of
`'0'` plus what is left above them. -/
def luText (v : Nat) : CStr :=
  if v = 0 then ['0']
  else if 999999999 < v then
    Char.ofNat (('0'.toNat + v / 1000000000) % 256) :: padDigits 9 (v % 1000000000)
  else padDigits 9 v

/-- `%d` of `ircsprintf`: the groups of three digits without leading zeros. -/
def dText (v : Int) : CStr :=
  if v = 0 then ['0']
  else if v < 0 then '-' :: (padDigits 12 v.natAbs).dropWhile (· == '0')
  else (padDigits 12 v.natAbs).dropWhile (· == '0')

/-- The cast to `unsigned long`. -/
def toULong (v : Int) : Nat := (BitVec.ofInt 64 v).toNat

/-! ### Reading a line -/

/-- A colon in front of the last parameter is dropped. -/
def stripColon : CStr → CStr
  | ':' :: s => s
  | s => s

/-- The loop of `string_to_array` at a parameter, with the number of parameters
it may still cut off; the one after those takes the rest of the line. -/
def toArrayFrom : Nat → CStr → List CStr
  | 0, p => [stripColon p]
  | n + 1, buf =>
    match buf with
    | ':' :: s => [s]
    | buf =>
      match strchr ' ' buf with
      | none => [buf]
      | some (tok, p) =>
        match p.dropWhile (· == ' ') with
        | [] => [tok]
        | c :: rest => tok :: (if n = 0 then [stripColon p] else toArrayFrom n (c :: rest))

/-- `string_to_array`: `parv[1]` and those after it. -/
def stringToArray (string : CStr) : List CStr :=
  match string.dropWhile (· == ' ') with
  | [] => []
  | c :: s => toArrayFrom (MAXPARA - 2) (c :: s)

/-- What `parse` cuts a line into: the sender, the command and the parameters. -/
structure Message where
  sender : CStr
  command : CStr
  parv : List CStr
  deriving DecidableEq

/-- The cutting `parse` does on a line that begins with a sender. -/
def parseLine (pbuffer : CStr) : Option Message :=
  match pbuffer.dropWhile (· == ' ') with
  | ':' :: ch =>
    match strchr ' ' ch with
    | none => none
    | some (sender, s) =>
      match strchr ' ' (s.dropWhile (· == ' ')) with
      | none => some ⟨sender, s.dropWhile (· == ' '), []⟩
      | some (command, args) => some ⟨sender, command, stringToArray args⟩
  | _ => none

/-- The 510 bytes of a line that `send_format` keeps. -/
def sendFormat (line : CStr) : CStr := line.take (IRCD_BUFSIZE - 2)

/-! ### Words -/

/-- A parameter that survives on a line in any place. -/
structure IsWord (w : CStr) : Prop where
  ne : w ≠ []
  noBlank : ' ' ∉ w
  noColon : w.head? ≠ some ':'

/-- Words with a blank after each, as the formats `"%s "` write them. -/
def words (ws : List CStr) : CStr := ws.flatMap fun w => w ++ [' ']

@[simp] theorem words_nil : words [] = [] := rfl

@[simp] theorem words_cons (w : CStr) (ws : List CStr) : words (w :: ws) = w ++ ' ' :: words
  ws := by
  simp [words]

theorem words_append (ws vs : List CStr) : words (ws ++ vs) = words ws ++ words vs := by
  simp [words]

theorem toArrayFrom_word {w p : CStr} (n : Nat) (hw : IsWord w) :
    toArrayFrom (n + 1) (w ++ ' ' :: p) =
      match p.dropWhile (· == ' ') with
      | [] => [w]
      | c :: rest => w :: (if n = 0 then [stripColon p] else toArrayFrom n (c :: rest)) := by
  obtain ⟨hne, hblank, hcolon⟩ := hw
  cases w with
  | nil => exact absurd rfl hne
  | cons c w =>
    have hc : c ≠ ':' := by simpa using hcolon
    have hcut : strchr ' ' (c :: (w ++ ' ' :: p)) = some (c :: w, p) := strchr_append hblank
    rw [cons_append, toArrayFrom, hcut]
    intro s hs
    exact hc (List.cons.inj hs).1

theorem toArrayFrom_words_cons {w v : CStr} {vs : List CStr} {rest : CStr} {n : Nat} (hw : IsWord w)
    (hv : IsWord v) (hn : n ≠ 0) : toArrayFrom (n + 1) (words (w :: v :: vs) ++ rest) =
      w :: toArrayFrom n (words (v :: vs) ++ rest) := by
  obtain ⟨c, v', rfl⟩ : ∃ c v', v = c :: v' := exists_cons_of_ne_nil hv.ne
  have hc : c ≠ ' ' := fun h => hv.noBlank (by simp [h])
  have hdrop : (words ((c :: v') :: vs) ++ rest).dropWhile (· == ' ') =
      words ((c :: v') :: vs) ++ rest := by
    simp [hc]
  rw [words_cons w, append_assoc, cons_append, toArrayFrom_word n hw, hdrop]
  simp [hn]

theorem toArrayFrom_words {ws : List CStr} (hws : ∀ w ∈ ws, IsWord w) (rest : CStr) (n : Nat)
    (hn : ws.length ≤ n) : toArrayFrom n (words ws ++ ':' :: rest) = ws ++ [rest] := by
  induction ws generalizing n with
  | nil => cases n <;> simp [toArrayFrom, stripColon]
  | cons w ws ih =>
    obtain ⟨n, rfl⟩ : ∃ k, n = k + 1 := ⟨n - 1, by simp at hn; omega⟩
    have hws' : ∀ v ∈ ws, IsWord v := fun v hv => hws v (mem_cons_of_mem _ hv)
    have hlen : ws.length ≤ n := by simpa using hn
    have htail := ih hws' n hlen
    cases ws with
    | nil =>
      rw [words_cons, append_assoc, cons_append, toArrayFrom_word n (hws w (by simp))]
      simp only [words_nil, nil_append] at htail ⊢
      cases n <;> simp_all [stripColon]
    | cons v vs =>
      have hn0 : n ≠ 0 := by simp at hlen; omega
      rw [toArrayFrom_words_cons (hws w (by simp)) (hws' v (by simp)) hn0, htail]
      rfl

theorem toArrayFrom_words_only {ws : List CStr} (hws : ∀ w ∈ ws, IsWord w) (hne : ws ≠ []) (n : Nat)
    (hn : ws.length ≤ n) : toArrayFrom n (words ws) = ws := by
  induction ws generalizing n with
  | nil => exact absurd rfl hne
  | cons w ws ih =>
    obtain ⟨n, rfl⟩ : ∃ k, n = k + 1 := ⟨n - 1, by simp at hn; omega⟩
    cases ws with
    | nil =>
      rw [words_cons, toArrayFrom_word n (hws w (by simp))]
      rfl
    | cons v vs =>
      have hlen : (v :: vs).length ≤ n := by simpa using hn
      have hn0 : n ≠ 0 := by simp at hlen; omega
      have htail := ih (fun u hu => hws u (mem_cons_of_mem _ hu)) (by simp) n hlen
      have hcons := @toArrayFrom_words_cons w v vs [] n (hws w (by simp)) (hws v (by simp)) hn0
      rw [append_nil, append_nil, htail] at hcons
      exact hcons

theorem dropWhile_words {ws : List CStr} (hws : ∀ w ∈ ws, IsWord w) (s : CStr)
    (hs : s.dropWhile (· == ' ') = s) : (words ws ++ s).dropWhile (· == ' ') = words ws ++ s := by
  cases ws with
  | nil => simpa using hs
  | cons w ws =>
    have hw := hws w (by simp)
    obtain ⟨c, w', rfl⟩ : ∃ c w', w = c :: w' := exists_cons_of_ne_nil hw.ne
    have hc : c ≠ ' ' := fun h => hw.noBlank (by simp [h])
    simp [hc]

theorem stringToArray_words {ws : List CStr} (hws : ∀ w ∈ ws, IsWord w) (rest : CStr)
    (hn : ws.length ≤ MAXPARA - 2) : stringToArray (words ws ++ ':' :: rest) = ws ++ [rest] := by
  rw [stringToArray, dropWhile_words hws _ (by simp), ← toArrayFrom_words hws rest _ hn]
  cases h : words ws ++ ':' :: rest with
  | nil => simp at h
  | cons c s => rfl

theorem stringToArray_words_only {ws : List CStr} (hws : ∀ w ∈ ws, IsWord w)
    (hn : ws.length ≤ MAXPARA - 2) : stringToArray (words ws) = ws := by
  rcases eq_or_ne ws [] with rfl | hne
  · rfl
  have hdrop := dropWhile_words hws [] rfl
  rw [append_nil] at hdrop
  have hread := toArrayFrom_words_only hws hne _ hn
  rw [stringToArray, hdrop]
  cases h : words ws with
  | nil =>
    cases ws with
    | nil => exact absurd rfl hne
    | cons w ws => simp at h
  | cons c s =>
    rw [h] at hread
    exact hread

theorem isWord_of_mem_toArrayFrom {n : Nat} {buf w : CStr} (hblank : buf.head? ≠ some ' ')
    (h : w ∈ (toArrayFrom n buf).dropLast) : IsWord w := by
  induction n generalizing buf with
  | zero => exact absurd h not_mem_nil
  | succ n ih =>
    unfold toArrayFrom at h
    split at h
    · exact absurd h not_mem_nil
    · rename_i hcolon
      split at h
      · exact absurd h not_mem_nil
      · rename_i tok p hcut
        obtain ⟨hbuf, htok⟩ := strchr_eq_some hcut
        have hword : IsWord tok := by
          have hne : tok ≠ [] := by
            rintro rfl
            exact hblank (by rw [hbuf]; rfl)
          obtain ⟨c, s, rfl⟩ := exists_cons_of_ne_nil hne
          refine ⟨hne, htok, fun hc => ?_⟩
          rw [head?_cons, Option.some.injEq] at hc
          exact hcolon _ (by rw [hbuf, hc]; rfl)
        split at h
        · exact absurd h not_mem_nil
        · rename_i c rest hrest
          have hc : (c :: rest).head? ≠ some ' ' := by
            rw [← hrest]
            intro hhead
            have hnot := head?_dropWhile_not (p := (· == ' ')) (l := p)
            rw [hhead] at hnot
            exact absurd hnot (by decide)
          split at h
          · rw [dropLast_cons_cons, dropLast_singleton, mem_singleton] at h
            exact h ▸ hword
          · cases htail : toArrayFrom n (c :: rest) with
            | nil =>
              rw [htail] at h
              exact absurd h not_mem_nil
            | cons v vs =>
              rw [htail, dropLast_cons_cons] at h
              rcases List.mem_cons.mp h with rfl | h
              · exact hword
              · exact ih hc (htail ▸ h)

theorem isWord_of_mem_stringToArray {s w : CStr} (h : w ∈ (stringToArray s).dropLast) :
    IsWord w := by
  unfold stringToArray at h
  split at h
  · exact absurd h not_mem_nil
  · rename_i c rest hrest
    refine isWord_of_mem_toArrayFrom (fun hhead => ?_) h
    have hnot := head?_dropWhile_not (p := (· == ' ')) (l := s)
    rw [hrest, hhead] at hnot
    exact absurd hnot (by decide)

theorem parseLine_eq {sender command args : CStr} (hs : ' ' ∉ sender) (hc : IsWord command) :
    parseLine (':' :: sender ++ ' ' :: command ++ ' ' :: args) =
      some ⟨sender, command, stringToArray args⟩ := by
  obtain ⟨c, command', rfl⟩ : ∃ c t, command = c :: t := exists_cons_of_ne_nil hc.ne
  have hblank : c ≠ ' ' := fun h => hc.noBlank (by simp [h])
  have hcut : strchr ' ' (sender ++ ' ' :: (c :: command' ++ ' ' :: args)) =
      some (sender, c :: command' ++ ' ' :: args) := strchr_append hs
  have hdrop : (c :: command' ++ ' ' :: args).dropWhile (· == ' ') = c :: command' ++ ' ' ::
      args := by
    simp [hblank]
  have hcut' : strchr ' ' (c :: command' ++ ' ' :: args) = some (c :: command', args) :=
    strchr_append hc.noBlank
  have hline : (':' :: sender ++ ' ' :: c :: command' ++ ' ' :: args).dropWhile (· == ' ') =
      ':' :: (sender ++ ' ' :: (c :: command' ++ ' ' :: args)) := by
    simp
  rw [parseLine, hline]
  simp only [hcut, hdrop, hcut']

/-! ### Numbers survive the line -/

theorem isDigit_digit {d : Nat} (h : d < 10) : isDigit (Char.ofNat (d + '0'.toNat)) = true := by
  interval_cases d <;> decide

theorem digitVal_digit {d : Nat} (h : d < 10) : digitVal (Char.ofNat (d + '0'.toNat)) = d := by
  interval_cases d <;> decide

theorem isDigit_padDigits {n v : Nat} {c : Char} (h : c ∈ padDigits n v) : isDigit c = true := by
  induction n generalizing v with
  | zero => simp [padDigits] at h
  | succ n ih =>
    rcases List.mem_append.mp h with h | h
    · exact ih h
    · rw [List.mem_singleton.mp h]
      exact isDigit_digit (Nat.mod_lt _ (by omega))

@[simp] theorem length_padDigits (n v : Nat) : (padDigits n v).length = n := by
  induction n generalizing v with
  | zero => rfl
  | succ n ih => simp [padDigits, ih]

theorem length_luText_le (v : Nat) : (luText v).length ≤ 10 := by
  unfold luText
  split
  · simp
  · split <;> simp

theorem readDigits_append {s t : CStr} (hs : ∀ c ∈ s, isDigit c = true) (acc : Nat) :
    readDigits acc (s ++ t) = readDigits (readDigits acc s) t := by
  induction s generalizing acc with
  | nil => rfl
  | cons c s ih =>
    have hc : isDigit c = true := hs c (by simp)
    simp only [cons_append, readDigits, hc, if_true]
    exact ih (fun d hd => hs d (mem_cons_of_mem _ hd)) _

theorem readDigits_padDigits (n v acc : Nat) :
    readDigits acc (padDigits n v) = acc * 10 ^ n + v % 10 ^ n := by
  induction n generalizing v with
  | zero => simp [padDigits, readDigits, Nat.mod_one]
  | succ n ih =>
    have hlast : v % 10 < 10 := Nat.mod_lt _ (by omega)
    rw [padDigits, readDigits_append (fun c => isDigit_padDigits), ih]
    simp only [readDigits, isDigit_digit hlast, digitVal_digit hlast, if_true]
    have hsplit : v % 10 ^ (n + 1) = v % 10 + 10 * (v / 10 % 10 ^ n) := by
      rw [Nat.pow_succ', Nat.mod_mul]
    rw [hsplit]
    ring

theorem readDigits_dropWhile_zero (s : CStr) :
    readDigits 0 (s.dropWhile (· == '0')) = readDigits 0 s := by
  induction s with
  | nil => rfl
  | cons c s ih =>
    rcases eq_or_ne c '0' with rfl | hc
    · have hzero : readDigits 0 ('0' :: s) = readDigits 0 s := rfl
      simp [ih, hzero]
    · simp [hc]

theorem strtol_digits_append {s t : CStr} (hne : s ≠ []) (hs : ∀ c ∈ s, isDigit c = true)
    (ht : t.head?.any isDigit = false) : strtol (s ++ t) = longOfNat (readDigits 0 s) := by
  have hread : readDigits 0 (s ++ t) = readDigits 0 s := by
    rw [readDigits_append hs]
    cases t with
    | nil => rfl
    | cons d t =>
      have hd : isDigit d = false := by simpa using ht
      rw [readDigits, if_neg (by simp [hd])]
  obtain ⟨c, s, rfl⟩ := exists_cons_of_ne_nil hne
  have hc : isDigit c = true := hs c (by simp)
  have hspace : isSpace c = false := by
    simp only [isDigit, Bool.and_eq_true, decide_eq_true_eq] at hc
    have hlow : 48 ≤ c.toNat := hc.1
    have hblank : c ≠ ' ' := by
      rintro rfl
      exact absurd hlow (by decide)
    simp [isSpace, hblank]
    omega
  have hminus : c ≠ '-' := by
    rintro rfl
    exact absurd hc (by decide)
  have hplus : c ≠ '+' := by
    rintro rfl
    exact absurd hc (by decide)
  rw [← hread, strtol, cons_append, dropWhile_cons_of_neg (by simp [hspace])]
  split
  · rename_i heq
    exact absurd (List.cons.inj heq).1 hminus
  · rename_i heq
    exact absurd (List.cons.inj heq).1 hplus
  · rfl

theorem strtol_digits {s : CStr} (hne : s ≠ []) (hs : ∀ c ∈ s, isDigit c = true) :
    strtol s = longOfNat (readDigits 0 s) := by
  have h := strtol_digits_append (t := []) hne hs rfl
  rwa [append_nil] at h

theorem lead_byte {v : Nat} (h : v < 10000000000) :
    ('0'.toNat + v / 1000000000) % 256 = v / 1000000000 + '0'.toNat := by
  have h48 : '0'.toNat = 48 := rfl
  omega

theorem strtol_luText {v : Nat} (h : v < 10000000000) : strtol (luText v) = v := by
  have hlong : v ≤ LONG_MAX := by
    unfold LONG_MAX
    omega
  rcases Nat.eq_zero_or_pos v with rfl | hpos
  · decide
  rw [luText, if_neg (by omega)]
  by_cases hbig : 999999999 < v
  · have hlead : v / 1000000000 < 10 := by omega
    rw [if_pos hbig, lead_byte h, strtol_digits (by simp), readDigits, if_pos (isDigit_digit hlead),
      digitVal_digit hlead, readDigits_padDigits]
    · have hsum : (0 * 10 + v / 1000000000) * 10 ^ 9 + v % 1000000000 % 10 ^ 9 = v := by omega
      rw [hsum, longOfNat, if_pos hlong]
    · intro c hc
      rcases List.mem_cons.mp hc with rfl | hc
      · exact isDigit_digit hlead
      · exact isDigit_padDigits hc
  · rw [if_neg hbig, strtol_digits (by simp [padDigits]) (fun c => isDigit_padDigits),
      readDigits_padDigits]
    have hsum : 0 * 10 ^ 9 + v % 10 ^ 9 = v := by omega
    rw [hsum, longOfNat, if_pos hlong]

theorem digitVal_le {c : Char} (h : isDigit c = true) : digitVal c ≤ 9 := by
  simp only [isDigit, Bool.and_eq_true, decide_eq_true_eq] at h
  have hle : c.toNat ≤ '9'.toNat := h.2
  have hnine : '9'.toNat = 57 := rfl
  have hzero : '0'.toNat = 48 := rfl
  unfold digitVal
  omega

theorem readDigits_lt (s : CStr) (acc : Nat) : readDigits acc s < (acc + 1) * 10 ^ s.length := by
  induction s generalizing acc with
  | nil => simp [readDigits]
  | cons c s ih =>
    have hpow : 0 < 10 ^ s.length := Nat.pos_of_ne_zero (by positivity)
    have hlen : (acc + 1) * 10 ^ (c :: s).length = ((acc + 1) * 10) * 10 ^ s.length := by
      rw [length_cons, Nat.pow_succ]
      ring
    rw [readDigits, hlen]
    split
    · rename_i hdigit
      have hval : digitVal c ≤ 9 := digitVal_le hdigit
      refine (ih _).trans_le (Nat.mul_le_mul_right _ (by omega))
    · calc acc < (acc + 1) * 10 := by omega
        _ ≤ (acc + 1) * 10 * 10 ^ s.length := Nat.le_mul_of_pos_right _ hpow

theorem length_dropWhile_padDigits {n v k : Nat} (h : v < 10 ^ k) :
    ((padDigits n v).dropWhile (· == '0')).length ≤ k := by
  induction n generalizing v k with
  | zero => simp [padDigits]
  | succ n ih =>
    rw [padDigits, dropWhile_append]
    cases k with
    | zero =>
      obtain rfl : v = 0 := by simpa using h
      have hnil := List.length_eq_zero_iff.mp (Nat.le_zero.mp
          (ih (v := 0 / 10) (k := 0) (by simp)))
      rw [hnil]
      decide
    | succ k =>
      have hdiv : v / 10 < 10 ^ k := by
        rw [Nat.pow_succ] at h
        omega
      have htail := ih hdiv
      split
      · exact (dropWhile_sublist _).length_le.trans (by simp)
      · simpa using htail

theorem strtol_cases (s : CStr) :
    (∃ ds, s.dropWhile isSpace = '-' :: ds ∧ -(readDigits 0 ds : Int) ≤ strtol s ∧
        strtol s ≤ 0) ∨
      ∃ ds, ds.length ≤ (s.dropWhile isSpace).length ∧ 0 ≤ strtol s ∧
        strtol s ≤ readDigits 0 ds := by
  have hlong : ∀ n : Nat, 0 ≤ longOfNat n ∧ longOfNat n ≤ n := by
    intro n
    unfold longOfNat
    split <;> omega
  unfold strtol
  split
  · rename_i ds hds
    refine .inl ⟨ds, hds, ?_⟩
    split <;> omega
  · rename_i ds hds
    exact .inr ⟨ds, by simp [hds], hlong _⟩
  · exact .inr ⟨_, le_rfl, hlong _⟩

theorem length_dText_atoi {s : CStr} (h : 0 < atoi s) : (dText (atoi s)).length ≤ s.length := by
  have hdrop : (s.dropWhile isSpace).length ≤ s.length := (dropWhile_sublist _).length_le
  have hwrap : atoi s = (strtol s).bmod (2 ^ 32) := by rw [atoi, BitVec.toInt_ofInt]
  rw [Int.bmod_def] at hwrap
  have hbound : (atoi s).natAbs < 10 ^ (s.dropWhile isSpace).length := by
    rcases strtol_cases s with ⟨ds, hds, hlow, hneg⟩ | ⟨ds, hds, hpos, hhigh⟩
    · -- a negative number wraps round to a positive one only when it has ten digits
      have hlt := readDigits_lt ds 0
      have hten : 10 ≤ ds.length := by
        by_contra hshort
        have hpow : 10 ^ ds.length ≤ 10 ^ 9 := Nat.pow_le_pow_right (by decide) (by omega)
        split at hwrap <;> omega
      have hpow : 10 ^ 10 ≤ 10 ^ (s.dropWhile isSpace).length := by
        refine Nat.pow_le_pow_right (by decide) ?_
        rw [hds, length_cons]
        omega
      split at hwrap <;> omega
    · have hlt := readDigits_lt ds 0
      have hpow : 10 ^ ds.length ≤ 10 ^ (s.dropWhile isSpace).length :=
        Nat.pow_le_pow_right (by decide) hds
      split at hwrap <;> omega
  have hne : atoi s ≠ 0 := by omega
  have hnonneg : ¬atoi s < 0 := by omega
  rw [dText, if_neg hne, if_neg hnonneg]
  exact (length_dropWhile_padDigits hbound).trans hdrop

theorem dropWhile_padDigits_ne_nil {n v : Nat} (hpos : 0 < v) (h : v < 10 ^ n) :
    (padDigits n v).dropWhile (· == '0') ≠ [] := by
  intro hnil
  have hread := readDigits_dropWhile_zero (padDigits n v)
  rw [hnil, readDigits_padDigits, Nat.mod_eq_of_lt h] at hread
  simp [readDigits] at hread
  omega

theorem isDigit_dropWhile {n v : Nat} {c : Char} (h : c ∈ (padDigits n v).dropWhile (· == '0')) :
    isDigit c = true :=
  isDigit_padDigits ((dropWhile_sublist _).subset h)

theorem atoi_dText {v : Int} (hlow : -2147483648 ≤ v) (hhigh : v < 2147483648) :
    atoi (dText v) = v := by
  have hcast : (BitVec.ofInt 32 v).toInt = v := by
    rw [BitVec.toInt_ofInt, Int.bmod_def]
    omega
  have hmod : v.natAbs < 10 ^ 12 := by omega
  rw [atoi]
  rcases lt_trichotomy v 0 with hv | rfl | hv
  · have hread : readDigits 0 ((padDigits 12 v.natAbs).dropWhile (· == '0')) = v.natAbs := by
      rw [readDigits_dropWhile_zero, readDigits_padDigits, Nat.mod_eq_of_lt hmod]
      omega
    have hlong : v.natAbs ≤ LONG_MAX := by
      unfold LONG_MAX
      omega
    have hstrtol : strtol (dText v) = v := by
      rw [dText, if_neg (by omega), if_pos hv, strtol, dropWhile_cons_of_neg (by decide)]
      simp only [hread, hlong, if_true]
      omega
    rw [hstrtol, hcast]
  · decide
  · have hread : readDigits 0 ((padDigits 12 v.natAbs).dropWhile (· == '0')) = v.natAbs := by
      rw [readDigits_dropWhile_zero, readDigits_padDigits, Nat.mod_eq_of_lt hmod]
      omega
    have hlong : v.natAbs ≤ LONG_MAX := by
      unfold LONG_MAX
      omega
    have hstrtol : strtol (dText v) = v := by
      rw [dText, if_neg (by omega), if_neg (by omega),
        strtol_digits (dropWhile_padDigits_ne_nil (by omega) hmod) fun c => isDigit_dropWhile,
        hread, longOfNat, if_pos hlong]
      omega
    rw [hstrtol, hcast]

theorem isWord_digits {s : CStr} (hne : s ≠ []) (hs : ∀ c ∈ s, isDigit c = true) : IsWord s where
  ne := hne
  noBlank h := absurd (hs _ h) (by decide)
  noColon h := by
    obtain ⟨c, s, rfl⟩ := exists_cons_of_ne_nil hne
    have hc : c = ':' := by simpa using h
    exact absurd (hs c (by simp)) (by rw [hc]; decide)

theorem isWord_luText {v : Nat} (h : v < 10000000000) : IsWord (luText v) := by
  rw [luText]
  split
  · exact ⟨by simp, by decide, by decide⟩
  · split
    · have hlead : v / 1000000000 < 10 := by omega
      rw [lead_byte h]
      apply isWord_digits (by simp)
      intro c hc
      rcases List.mem_cons.mp hc with rfl | hc
      · exact isDigit_digit hlead
      · exact isDigit_padDigits hc
    · exact isWord_digits (by simp [padDigits]) fun c => isDigit_padDigits

theorem isWord_dText {v : Int} (hlow : -2147483648 ≤ v) (hhigh : v < 2147483648) :
    IsWord (dText v) := by
  have hmod : v.natAbs < 10 ^ 12 := by omega
  rw [dText]
  split
  · exact ⟨by simp, by decide, by decide⟩
  · rename_i hv
    have hdigits : IsWord ((padDigits 12 v.natAbs).dropWhile (· == '0')) :=
      isWord_digits (dropWhile_padDigits_ne_nil (by omega) hmod) fun c => isDigit_dropWhile
    split
    · exact ⟨by simp, by simpa using hdigits.noBlank, by simp⟩
    · exact hdigits

end Ircd
