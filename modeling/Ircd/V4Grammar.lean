import Ircd.Hostmask
import Mathlib.Data.List.TakeWhile
import Mathlib.Tactic.IntervalCases

/-!
What `try_parse_v4_netmask` takes for an IPv4 mask.

`V4Mask` says which texts are masks and of what length. The function only looks at the
characters: it never asks whether an octet has digits or fits a byte, and it hands what
follows the slash to `strtoul`, blanks and sign included, and keeps 32 bits of the
result. `parse_v4_accepts_masks_iff` says for which texts this does not matter.
-/

namespace Ircd

open List
open Bytes (clearLow)

/-! ### The masks -/

def IsOctet (w : CStr) : Prop := w ≠ [] ∧ (∀ c ∈ w, isDigit c = true) ∧ readDigits 0 w ≤ 255

instance (w : CStr) : Decidable (IsOctet w) :=
  @instDecidableAnd _ _ _
    (@instDecidableAnd _ _ (List.decidableBAll (isDigit · = true) w) _)

/-- The texts of IPv4 masks, and their prefix lengths. -/
inductive V4Mask : CStr → Nat → Prop where
  | plain {os : List CStr} (hne : os ≠ []) (hlen : os.length ≤ 4) (hos : ∀ w ∈ os, IsOctet w) :
      V4Mask (['.'].intercalate os) (8 * os.length)
  | stars {os : List CStr} {k : Nat} (hne : os ≠ []) (hlen : os.length + (k + 1) ≤ 4)
      (hos : ∀ w ∈ os, IsOctet w) :
      V4Mask (['.'].intercalate (os ++ List.replicate (k + 1) ['*'])) (8 * os.length)
  | slash {os : List CStr} {w : CStr} (hne : os ≠ []) (hlen : os.length ≤ 4)
      (hos : ∀ w ∈ os, IsOctet w) (hw : w ≠ []) (hdigits : ∀ c ∈ w, isDigit c = true)
      (hbits : readDigits 0 w ≤ 32) :
      V4Mask (['.'].intercalate os ++ '/' :: w) (readDigits 0 w)

/-! ### The stores -/

/-- The indices behind the first at which `try_parse_v4_netmask` stores into `digits`,
with `n` places used. -/
def v4StoresFrom : Nat → CStr → List Nat
  | _, [] => []
  | n, c :: p =>
    if isDigit c then v4StoresFrom n p
    else if c = '.' then
      if 4 ≤ n then [] else n :: v4StoresFrom (n + 1) p
    else []

/-- The indices at which `try_parse_v4_netmask` stores into `digits`. -/
def v4Stores (text : CStr) : List Nat := 0 :: v4StoresFrom 1 text

/-- A change of the byte of `addb` at an index that is computed, `none` outside. -/
def storeByte (addb : List Nat) (i : Int) (f : Nat → Nat) : Option (List Nat) :=
  if 0 ≤ i ∧ i < addb.length then some (addb.modify i.toNat f) else none

/-- Setting the unused bits of `addb` to 0, with the division of the source. -/
def clearUnused (bits : Int) (addb : List Nat) : Option (List Nat) := do
  let addb ←
    if bits < 32 ∧ bits.tmod 8 ≠ 0 then
      storeByte addb (bits.tdiv 8) (clearLow (8 - bits.tmod 8).toNat)
    else some addb
  let n := bits.tdiv 8 + if bits.tmod 8 ≠ 0 then 1 else 0
  (List.range (4 - n).toNat).foldlM (fun addb i => storeByte addb (n + i) fun _ => 0) addb

/-- The octets that `try_parse_v4_netmask` stores before it clears the unused bits. -/
def v4Addb (text : CStr) : InAddr :=
  Bytes.Block.ofList 4 (((v4Loop [text] none text).elim [] Prod.fst).map fun d => (strtoul d).1)

/-- What is promised of the result for a text: if it is an IPv4 mask, the text is one,
of that length, and the address has nothing behind the prefix; and every index into
`digits` and `addb` is inside. -/
def V4Sound (text : CStr) : Prop :=
  (∀ i ∈ v4Stores text, i < 4) ∧
    ∀ addr bits, tryParseV4Netmask text = .ipv4 addr bits →
      clearUnused bits (v4Addb text).bytes = some addr.bytes ∧
        ∃ n : Nat, bits = n ∧ V4Mask text n ∧ addr.bytes = Bytes.clearBeyond n addr.bytes

/-! ### What decides -/

/-- The characters that the loop passes over. -/
def isOctetChar (c : Char) : Bool := isDigit c || c == '.'

abbrev v4Text (text : CStr) : CStr := text.takeWhile isOctetChar

/-- The text from that character on. -/
abbrev v4Ending (text : CStr) : CStr := text.dropWhile isOctetChar

/-- The octets as written: what the dots separate, without the place of a star. -/
def v4Octets (text : CStr) : List CStr :=
  if v4Ending text = ['*'] then (v4Text text).dropLast.splitOn '.' else (v4Text text).splitOn '.'

/-- The endings with which a text of that many parts is taken; `last` is the character
before. -/
def EndsMask (parts : Nat) (last : Option Char) : CStr → Prop
  | [] => True
  | '*' :: rest => rest = [] ∧ last = some '.'
  | '/' :: rest =>
    toInt32 (strtoul rest).1 ≠ 0 ∧ (strtoul rest).2 = [] ∧
      toInt32 (strtoul rest).1 ≤ (parts * 8 : Nat)
  | _ => False

def ShapedV4 (text : CStr) : Prop :=
  (v4Text text).count '.' ≤ 3 ∧
    EndsMask ((v4Text text).count '.' + 1) (v4Text text).getLast? (v4Ending text)

/-- What the function does not look at: an octet that is empty or too large, and a
length that is not written as a number or does not fit an `int`. -/
def SlipsV4 (text : CStr) : Prop :=
  (∃ w ∈ v4Octets text, w = [] ∨ 255 < readDigits 0 w) ∨
    ∃ rest, v4Ending text = '/' :: rest ∧
      ((∃ c ∈ rest, isDigit c = false) ∨ 2 ^ 31 ≤ readDigits 0 rest)

/-! ### The loop -/

/-- The prefix length that the loop finds, 0 if it is not given. -/
def endingBits (parts : Nat) : CStr → Int
  | '*' :: _ => ((parts - 1) * 8 : Nat)
  | '/' :: rest => toInt32 (strtoul rest).1
  | _ => 0

theorem isOctetChar_iff {c : Char} : isOctetChar c = true ↔ isDigit c = true ∨ c = '.' := by
  simp [isOctetChar]

section Ending

variable {c : Char} {p : CStr}

theorem v4Text_cons (h : isOctetChar c = true) : v4Text (c :: p) = c :: v4Text p :=
  takeWhile_cons_of_pos h

theorem v4Ending_cons (h : isOctetChar c = true) : v4Ending (c :: p) = v4Ending p :=
  dropWhile_cons_of_pos h

theorem v4Text_stop (h : ¬ isOctetChar c = true) : v4Text (c :: p) = [] :=
  takeWhile_cons_of_neg h

theorem v4Ending_stop (h : ¬ isOctetChar c = true) : v4Ending (c :: p) = c :: p :=
  dropWhile_cons_of_neg h

end Ending

theorem last_cons (c : Char) (s : CStr) (prev : Option Char) :
    (c :: s).getLast?.or prev = s.getLast?.or (some c) := by
  cases h : s.getLast? <;> simp [getLast?_cons, h]

theorem v4Loop_iff {ds : List CStr} {prev : Option Char} {text : CStr} {n : Nat} {bits : Int}
    (hle : ds.length ≤ 4) :
    (∃ ds', v4Loop ds prev text = some (ds', bits) ∧ ds'.length = n) ↔
      n = ds.length + (v4Text text).count '.' ∧ n ≤ 4 ∧
        EndsMask n ((v4Text text).getLast?.or prev) (v4Ending text) ∧
        bits = endingBits n (v4Ending text) := by
  induction text generalizing ds prev with
  | nil =>
    simp only [v4Loop, takeWhile_nil, dropWhile_nil, count_nil, Nat.add_zero,
      EndsMask, endingBits, Option.some.injEq, Prod.mk.injEq]
    constructor
    · rintro ⟨_, ⟨rfl, rfl⟩, rfl⟩
      exact ⟨rfl, hle, trivial, rfl⟩
    · rintro ⟨rfl, -, -, rfl⟩
      exact ⟨ds, ⟨rfl, rfl⟩, rfl⟩
  | cons c p ih =>
    unfold v4Loop
    by_cases hd : isDigit c = true
    · have hoct : isOctetChar c = true := isOctetChar_iff.mpr (.inl hd)
      have hdot : c ≠ '.' := by
        rintro rfl
        exact absurd hd (by decide)
      rw [if_pos hd, ih hle, v4Text_cons hoct, v4Ending_cons hoct, last_cons,
        count_cons_of_ne hdot]
    · rw [if_neg hd]
      by_cases hdot : c = '.'
      · subst hdot
        have hoct : isOctetChar '.' = true := isOctetChar_iff.mpr (.inr rfl)
        rw [if_pos rfl, v4Text_cons hoct, v4Ending_cons hoct, last_cons, count_cons_self]
        by_cases hfull : 4 ≤ ds.length
        · simp only [if_pos hfull, reduceCtorEq, false_and, exists_false, false_iff, not_and]
          omega
        · rw [if_neg hfull, ih (by simp; omega), length_append, length_singleton,
            Nat.add_assoc, Nat.add_comm 1]
      · have hoct : ¬ isOctetChar c = true := by
          rw [isOctetChar_iff]
          exact fun h => h.elim hd hdot
        rw [if_neg hdot, v4Text_stop hoct, v4Ending_stop hoct, count_nil, Nat.add_zero,
          getLast?_nil, Option.none_or]
        by_cases hstar : c = '*'
        · subst hstar
          rw [if_pos rfl]
          simp only [EndsMask, endingBits]
          by_cases hbad : p ≠ [] ∨ prev ≠ some '.'
          · rw [if_pos hbad]
            simp only [reduceCtorEq, false_and, exists_false, false_iff]
            rintro ⟨-, -, ⟨hp, hprev⟩, -⟩
            exact hbad.elim (fun h => h hp) fun h => h hprev
          · rw [if_neg hbad]
            simp only [not_or, not_not] at hbad
            simp only [Option.some.injEq, Prod.mk.injEq]
            constructor
            · rintro ⟨_, ⟨rfl, rfl⟩, rfl⟩
              exact ⟨rfl, hle, hbad, rfl⟩
            · rintro ⟨rfl, -, -, rfl⟩
              exact ⟨ds, ⟨rfl, rfl⟩, rfl⟩
        · rw [if_neg hstar]
          by_cases hslash : c = '/'
          · subst hslash
            rw [if_pos rfl]
            simp only [EndsMask, endingBits]
            by_cases hbad : toInt32 (strtoul p).1 = 0 ∨ (strtoul p).2 ≠ []
            · rw [if_pos hbad]
              simp only [reduceCtorEq, false_and, exists_false, false_iff]
              rintro ⟨-, -, ⟨hzero, hafter, -⟩, -⟩
              exact hbad.elim hzero fun h => h hafter
            · rw [if_neg hbad]
              simp only [not_or, not_not] at hbad
              by_cases hbig : toInt32 (strtoul p).1 > (ds.length * 8 : Nat)
              · rw [if_pos hbig]
                simp only [reduceCtorEq, false_and, exists_false, false_iff]
                rintro ⟨rfl, -, ⟨-, -, hfit⟩, -⟩
                omega
              · rw [if_neg hbig]
                simp only [Option.some.injEq, Prod.mk.injEq]
                constructor
                · rintro ⟨_, ⟨rfl, rfl⟩, rfl⟩
                  exact ⟨rfl, hle, ⟨hbad.1, hbad.2, not_lt.mp hbig⟩, rfl⟩
                · rintro ⟨rfl, -, -, rfl⟩
                  exact ⟨ds, ⟨rfl, rfl⟩, rfl⟩
          · rw [if_neg hslash]
            simp only [reduceCtorEq, false_and, exists_false, false_iff]
            rintro ⟨-, -, hend, -⟩
            unfold EndsMask at hend
            split at hend <;> simp_all

/-! ### The parser -/

def v4Prefix (text : CStr) : Int :=
  let n := (v4Text text).count '.' + 1
  if endingBits n (v4Ending text) = 0 then (n * 8 : Nat) else endingBits n (v4Ending text)

theorem v4Loop_text_iff {text : CStr} {bits : Int} :
    (∃ ds, v4Loop [text] none text = some (ds, bits) ∧
      ds.length = (v4Text text).count '.' + 1) ↔
      ShapedV4 text ∧ bits = endingBits ((v4Text text).count '.' + 1) (v4Ending text) := by
  rw [v4Loop_iff (by simp), length_singleton, Option.or_none, Nat.add_comm 1]
  constructor
  · rintro ⟨-, hle, hend, hbits⟩
    exact ⟨⟨by omega, hend⟩, hbits⟩
  · rintro ⟨⟨hle, hend⟩, hbits⟩
    exact ⟨rfl, by omega, hend, hbits⟩

theorem tryParseV4Netmask_shaped {text : CStr} (h : ShapedV4 text) :
    tryParseV4Netmask text =
      .ipv4 ((v4Addb text).clearBeyond (v4Prefix text).toNat) (v4Prefix text) := by
  obtain ⟨ds, hloop, hlen⟩ := v4Loop_text_iff.mpr ⟨h, rfl⟩
  have hle := h.1
  have hbits : (if (if ds.length < 4 ∧ endingBits ((v4Text text).count '.' + 1) (v4Ending text) = 0
      then ((ds.length * 8 : Nat) : Int)
      else endingBits ((v4Text text).count '.' + 1) (v4Ending text)) = 0 then 32
      else if ds.length < 4 ∧ endingBits ((v4Text text).count '.' + 1) (v4Ending text) = 0
      then ((ds.length * 8 : Nat) : Int)
      else endingBits ((v4Text text).count '.' + 1) (v4Ending text)) = v4Prefix text := by
    rw [hlen]
    simp only [v4Prefix]
    split_ifs <;> omega
  unfold tryParseV4Netmask
  simp only [hloop, v4Addb, Option.elim_some]
  rw [hbits]

theorem tryParseV4Netmask_host {text : CStr} (h : ¬ ShapedV4 text) :
    tryParseV4Netmask text = .host := by
  have hloop : v4Loop [text] none text = none := by
    cases hres : v4Loop [text] none text with
    | none => rfl
    | some r =>
      obtain ⟨hn, -⟩ := (v4Loop_iff (by simp)).mp ⟨r.1, hres, rfl⟩
      rw [length_singleton, Nat.add_comm] at hn
      exact absurd (v4Loop_text_iff.mp ⟨r.1, hres, hn⟩).1 h
  unfold tryParseV4Netmask
  rw [hloop]

theorem v4StoresFrom_lt {n : Nat} {text : CStr} : ∀ i ∈ v4StoresFrom n text, i < 4 := by
  induction text generalizing n with
  | nil => simp [v4StoresFrom]
  | cons c p ih =>
    unfold v4StoresFrom
    split_ifs with hd hdot hfull
    · exact ih
    · simp
    · intro i hi
      rcases List.mem_cons.mp hi with rfl | hi
      · omega
      · exact ih i hi
    · simp

theorem v4Stores_lt (text : CStr) : ∀ i ∈ v4Stores text, i < 4 := by
  intro i hi
  rcases List.mem_cons.mp hi with rfl | hi
  · norm_num
  · exact v4StoresFrom_lt i hi

theorem clearUnused_eq {bits : Nat} (addb : InAddr) (hpos : 1 ≤ bits) (hle : bits ≤ 32) :
    clearUnused bits addb.bytes = some (addb.clearBeyond bits).bytes := by
  have hzero : ∀ b < 256, clearLow 8 b = 0 := by
    intro b hb
    rw [clearLow, Nat.div_eq_of_lt (by omega), Nat.zero_mul]
  obtain ⟨a, b, c, d, hbytes⟩ := List.length_eq_four.mp addb.length_eq
  have hwf := addb.wf
  simp only [Bytes.Block.clearBeyond]
  rw [hbytes] at hwf ⊢
  obtain ⟨-, hb, hc, hd⟩ : a < 256 ∧ b < 256 ∧ c < 256 ∧ d < 256 := by
    simpa [Bytes.Wf] using hwf
  interval_cases bits
  case «8» =>
    have hcut : Bytes.clearBeyond 8 [a, b, c, d] = [a, clearLow 8 b, 0, 0] := rfl
    rw [hcut, hzero b hb]
    rfl
  case «16» =>
    have hcut : Bytes.clearBeyond 16 [a, b, c, d] = [a, b, clearLow 8 c, 0] := rfl
    rw [hcut, hzero c hc]
    rfl
  case «24» =>
    have hcut : Bytes.clearBeyond 24 [a, b, c, d] = [a, b, c, clearLow 8 d] := rfl
    rw [hcut, hzero d hd]
    rfl
  all_goals rfl

/-! ### Texts joined by dots -/

theorem mem_intercalate {c : Char} {w : CStr} {ws : List CStr} (h : w ∈ ws) (hc : c ∈ w) :
    c ∈ ['.'].intercalate ws := by
  induction ws with
  | nil => simp at h
  | cons v vs ih =>
    cases vs with
    | nil =>
      rw [mem_singleton] at h
      rwa [intercalate_singleton, ← h]
    | cons u us =>
      rw [intercalate_cons_cons, mem_append]
      rcases List.mem_cons.mp h with rfl | h
      · exact .inl (mem_append_left _ hc)
      · exact .inr (ih h)

theorem intercalate_append {ws vs : List CStr} (hws : ws ≠ []) (hvs : vs ≠ []) :
    ['.'].intercalate (ws ++ vs) = ['.'].intercalate ws ++ '.' :: ['.'].intercalate vs := by
  induction ws with
  | nil => exact absurd rfl hws
  | cons w ws ih =>
    cases ws with
    | nil =>
      rw [singleton_append, intercalate_cons_of_ne_nil hvs,
        intercalate_singleton,
        append_assoc, singleton_append]
    | cons u us =>
      rw [cons_append, intercalate_cons_of_ne_nil (by simp), ih (by simp),
        intercalate_cons_cons]
      simp only [append_assoc]

theorem octetChars_intercalate {os : List CStr} (hos : ∀ w ∈ os, ∀ c ∈ w, isDigit c = true) :
    ∀ c ∈ ['.'].intercalate os, isOctetChar c = true := by
  induction os with
  | nil => simp
  | cons v vs ih =>
    have hv : ∀ c ∈ v, isOctetChar c = true := fun c hc =>
      isOctetChar_iff.mpr (.inl (hos v mem_cons_self c hc))
    cases vs with
    | nil => rwa [intercalate_singleton]
    | cons u us =>
      rw [intercalate_cons_cons]
      intro c hc
      rw [mem_append, mem_append, mem_singleton] at hc
      rcases hc with (hc | rfl) | hc
      · exact hv c hc
      · exact isOctetChar_iff.mpr (.inr rfl)
      · exact ih (fun w hw => hos w (mem_cons_of_mem _ hw)) c hc

theorem digits_of_mem_splitOn {s w : CStr} (hs : ∀ c ∈ s, isOctetChar c = true)
    (hw : w ∈ s.splitOn '.') : ∀ c ∈ w, isDigit c = true := by
  intro c hc
  have hmem : c ∈ s := by
    have h := mem_intercalate hw hc
    rwa [intercalate_splitOn] at h
  rcases isOctetChar_iff.mp (hs c hmem) with hd | rfl
  · exact hd
  · exact absurd hc (notMem_of_mem_splitOn hw)

theorem length_splitOn_eq_count (s : CStr) : (s.splitOn '.').length = s.count '.' + 1 := by
  induction s with
  | nil => rfl
  | cons c s ih =>
    rw [splitOn_cons_eq_if_modifyHead]
    by_cases hc : c = '.'
    · simp [hc, ih]
    · simp [hc, ih]

/-! ### Masks and their texts -/

section Mask

variable {os : List CStr} {text e : CStr} {n : Nat}

theorem v4Text_append {t : CStr} (ht : ∀ c ∈ t, isOctetChar c = true)
    (he : e.head?.any isOctetChar = false) : v4Text (t ++ e) = t ∧ v4Ending (t ++ e) = e := by
  unfold v4Text v4Ending
  rw [takeWhile_append_of_pos ht, dropWhile_append_of_pos ht]
  cases e with
  | nil => simp
  | cons c p =>
    have hc : ¬ isOctetChar c = true := by simpa using he
    exact ⟨by rw [takeWhile_cons_of_neg hc, append_nil], v4Ending_stop hc⟩

theorem octetChars_of_octets (hos : ∀ w ∈ os, IsOctet w) :
    ∀ c ∈ ['.'].intercalate os, isOctetChar c = true :=
  octetChars_intercalate fun w hw => (hos w hw).2.1

theorem splitOn_intercalate_octets (hne : os ≠ []) (hos : ∀ w ∈ os, IsOctet w) :
    (['.'].intercalate os).splitOn '.' = os :=
  splitOn_intercalate '.'
    (fun w hw hdot => absurd ((hos w hw).2.1 '.' hdot) (by decide)) hne

theorem not_slip_of_octets (hos : ∀ w ∈ os, IsOctet w) :
    ¬ ∃ w ∈ os, w = [] ∨ 255 < readDigits 0 w := by
  rintro ⟨w, hw, hempty | hbig⟩
  · exact (hos w hw).1 hempty
  · exact absurd (hos w hw).2.2 (by omega)

theorem V4Mask.not_slips (hmask : V4Mask text n) (hshaped : ShapedV4 text) : ¬ SlipsV4 text := by
  cases hmask with
  | plain hne hlen hos =>
    obtain ⟨htext, hend⟩ := v4Text_append (e := []) (octetChars_of_octets hos) rfl
    rw [append_nil] at htext hend
    rintro (hoct | ⟨rest, hrest, -⟩)
    · rw [v4Octets, hend, htext, if_neg (by simp), splitOn_intercalate_octets hne hos] at hoct
      exact not_slip_of_octets hos hoct
    · rw [hend] at hrest
      cases hrest
  | @stars os k hne hlen hos =>
    -- of the stars only one is taken, as the whole ending
    have hdots : ∀ c ∈ ['.'].intercalate os ++ ['.'], isOctetChar c = true := by
      intro c hc
      rcases List.mem_append.mp hc with hc | hc
      · exact octetChars_of_octets hos c hc
      · rw [List.mem_singleton.mp hc]
        rfl
    obtain ⟨rest, hrest⟩ : ∃ rest, ['.'].intercalate (List.replicate (k + 1) ['*']) = '*' ::
        rest := by
      cases k with
      | zero => exact ⟨[], rfl⟩
      | succ k => exact ⟨_, intercalate_cons_cons⟩
    have hsplit : ['.'].intercalate (os ++ List.replicate (k + 1) ['*']) =
        (['.'].intercalate os ++ ['.']) ++ '*' :: rest := by
      rw [intercalate_append hne (by simp), hrest, append_assoc, singleton_append]
    rw [hsplit] at hshaped ⊢
    obtain ⟨htext, hend⟩ := v4Text_append (e := '*' :: rest) hdots rfl
    have hnil : rest = [] := by
      have h := hshaped.2
      rw [hend] at h
      exact h.1
    rintro (hoct | ⟨behind, hbehind, -⟩)
    · rw [v4Octets, hend, htext, hnil, if_pos rfl, dropLast_concat,
        splitOn_intercalate_octets hne hos] at hoct
      exact not_slip_of_octets hos hoct
    · rw [hend] at hbehind
      cases hbehind
  | @slash os w hne hlen hos hw hdigits hbits =>
    obtain ⟨htext, hend⟩ := v4Text_append (e := '/' :: w) (octetChars_of_octets hos) rfl
    rintro (hoct | ⟨rest, hrest, hbad⟩)
    · rw [v4Octets, hend, htext, if_neg (by simp), splitOn_intercalate_octets hne hos] at hoct
      exact not_slip_of_octets hos hoct
    · rw [hend, List.cons.injEq] at hrest
      obtain ⟨-, rfl⟩ := hrest
      rcases hbad with ⟨c, hc, hnot⟩ | hbig
      · rw [hdigits c hc] at hnot
        cases hnot
      · omega

theorem octets_of_not_slips (h : ¬ SlipsV4 text) : ∀ w ∈ v4Octets text, IsOctet w := by
  intro w hw
  have hchars : ∀ c ∈ v4Text text, isOctetChar c = true := fun c hc => mem_takeWhile_imp hc
  have hdigits : ∀ c ∈ w, isDigit c = true := by
    unfold v4Octets at hw
    split at hw
    · exact digits_of_mem_splitOn (fun c hc => hchars c (mem_of_mem_dropLast hc)) hw
    · exact digits_of_mem_splitOn hchars hw
  refine ⟨fun hnil => h (.inl ⟨w, hw, .inl hnil⟩), hdigits, ?_⟩
  by_contra hbig
  exact h (.inl ⟨w, hw, .inr (not_le.mp hbig)⟩)

end Mask

/-! ### Numbers as written -/

theorem isSpace_of_isDigit {c : Char} (h : isDigit c = true) : isSpace c = false := by
  simp only [isDigit, Bool.and_eq_true, decide_eq_true_eq] at h
  have hlow : 48 ≤ c.toNat := h.1
  have hblank : c ≠ ' ' := by
    rintro rfl
    exact absurd hlow (by decide)
  simp [isSpace, hblank]
  omega

theorem strtoul_digits {w : CStr} (hne : w ≠ []) (hw : ∀ c ∈ w, isDigit c = true)
    (hle : readDigits 0 w ≤ ULONG_MAX) : strtoul w = (readDigits 0 w, []) := by
  obtain ⟨c, s, rfl⟩ := exists_cons_of_ne_nil hne
  have hc : isDigit c = true := hw c mem_cons_self
  have hblank : (c :: s).dropWhile isSpace = c :: s :=
    dropWhile_cons_of_neg (by simp [isSpace_of_isDigit hc])
  have hminus : c ≠ '-' := by
    rintro rfl
    exact absurd hc (by decide)
  have hplus : c ≠ '+' := by
    rintro rfl
    exact absurd hc (by decide)
  have hrest : (c :: s).dropWhile isDigit = [] := List.dropWhile_eq_nil_iff.mpr hw
  unfold strtoul
  rw [hblank]
  split
  rename_i neg ds hsign
  split at hsign
  · rename_i heq
    exact absurd (List.cons.inj heq).1 hminus
  · rename_i heq
    exact absurd (List.cons.inj heq).1 hplus
  · obtain ⟨rfl, rfl⟩ := Prod.mk.inj hsign
    simp [hc, hrest, not_lt.mpr hle]

theorem toInt32_of_lt {v : Nat} (h : v < 2 ^ 31) : toInt32 v = v := by
  unfold toInt32
  have hnat : (BitVec.ofNat 32 v).toNat = v := by
    rw [BitVec.toNat_ofNat]
    omega
  rw [BitVec.toInt_eq_toNat_of_lt (by omega), hnat]

theorem v4Mask_of_not_slips {text : CStr} (hshaped : ShapedV4 text) (h : ¬ SlipsV4 text) :
    ∃ n : Nat, v4Prefix text = n ∧ V4Mask text n := by
  obtain ⟨hle, hends⟩ := hshaped
  have hos := octets_of_not_slips h
  have htext : v4Text text ++ v4Ending text = text := takeWhile_append_dropWhile
  have hcount := length_splitOn_eq_count (v4Text text)
  have hne : (v4Text text).splitOn '.' ≠ [] := splitOn_ne_nil _ _
  unfold v4Octets at hos
  unfold v4Prefix
  cases hend : v4Ending text with
  | nil =>
    rw [hend, if_neg (by simp)] at hos
    rw [hend, append_nil] at htext
    have hmask := V4Mask.plain hne (by omega) hos
    rw [intercalate_splitOn, htext] at hmask
    refine ⟨_, ?_, hmask⟩
    rw [htext] at hcount
    simp only [endingBits, if_pos, htext]
    omega
  | cons c rest =>
    rw [hend] at hends
    unfold EndsMask at hends
    split at hends
    · rename_i heq
      cases heq
    · rename_i heq
      obtain ⟨rfl, rfl⟩ := List.cons.inj heq
      obtain ⟨rfl, hlast⟩ := hends
      -- the dot in front of the star ends the octets
      obtain ⟨t, ht⟩ := List.getLast?_eq_some_iff.mp hlast
      rw [hend, if_pos rfl, ht, dropLast_concat] at hos
      have hparts : t.count '.' + 1 = (v4Text text).count '.' := by
        rw [ht, count_append]
        rfl
      have htlen := length_splitOn_eq_count t
      have htne : t.splitOn '.' ≠ [] := splitOn_ne_nil _ _
      have hmask := V4Mask.stars (k := 0) htne (by omega) hos
      rw [intercalate_append htne (by simp), intercalate_splitOn] at hmask
      have hwhole : t ++ '.' :: ['.'].intercalate (List.replicate (0 + 1) ['*']) = text := by
        rw [← htext, hend, ht, append_assoc]
        rfl
      rw [hwhole] at hmask
      refine ⟨_, ?_, hmask⟩
      simp only [endingBits]
      rw [if_neg (by omega)]
      omega
    · rename_i heq
      obtain ⟨rfl, rfl⟩ := List.cons.inj heq
      obtain ⟨hzero, hafter, hfit⟩ := hends
      have hdigits : ∀ c ∈ rest, isDigit c = true := by
        intro c hc
        by_contra hnot
        exact h (.inr ⟨rest, hend, .inl ⟨c, hc, by simpa using hnot⟩⟩)
      have hsmall : readDigits 0 rest < 2 ^ 31 := by
        by_contra hbig
        exact h (.inr ⟨rest, hend, .inr (not_lt.mp hbig)⟩)
      have hrest : rest ≠ [] := by
        rintro rfl
        exact hzero rfl
      have hread := strtoul_digits hrest hdigits (by rw [ULONG_MAX]; omega)
      have hbits : toInt32 (strtoul rest).1 = readDigits 0 rest := by
        rw [hread, toInt32_of_lt hsmall]
      rw [hend, if_neg (by simp)] at hos
      have hmask := V4Mask.slash hne (by omega) hos hrest hdigits (by omega)
      rw [intercalate_splitOn, ← hend, htext] at hmask
      refine ⟨_, ?_, hmask⟩
      simp only [endingBits]
      rw [if_neg hzero, hbits]
    · exact hends.elim

theorem v4Prefix_bounds {text : CStr} {n : Nat} (hshaped : ShapedV4 text)
    (hn : v4Prefix text = n) : 1 ≤ n ∧ n ≤ 32 := by
  have hwf := tryParseV4Netmask_wf text
  rw [tryParseV4Netmask_shaped hshaped, hn] at hwf
  obtain ⟨hzero, hle, -⟩ := hwf
  omega

theorem V4Sound.not_slips {text : CStr} (h : V4Sound text) (hshaped : ShapedV4 text) :
    ¬ SlipsV4 text := by
  obtain ⟨-, n, -, hmask, -⟩ := h.2 _ _ (tryParseV4Netmask_shaped hshaped)
  exact hmask.not_slips hshaped

/-- `try_parse_v4_netmask` accepts only masks, except where a text has their shape and
something that it does not look at. -/
theorem parse_v4_accepts_masks_iff (text : CStr) :
    V4Sound text ↔ ¬ (ShapedV4 text ∧ SlipsV4 text) := by
  constructor
  · rintro hsound ⟨hshaped, hslips⟩
    exact hsound.not_slips hshaped hslips
  · intro h
    constructor
    · exact v4Stores_lt text
    · intro addr bits hres
      have hshaped : ShapedV4 text := by
        by_contra hno
        rw [tryParseV4Netmask_host hno] at hres
        cases hres
      rw [tryParseV4Netmask_shaped hshaped] at hres
      obtain ⟨rfl, rfl⟩ := NetMask.ipv4.inj hres
      obtain ⟨n, hn, hmask⟩ := v4Mask_of_not_slips hshaped fun hs => h ⟨hshaped, hs⟩
      obtain ⟨hpos, hle⟩ := v4Prefix_bounds hshaped hn
      rw [hn]
      constructor
      · exact clearUnused_eq (v4Addb text) hpos hle
      · exact ⟨n, rfl, hmask, (Bytes.clearBeyond_idem n _).symm⟩

/-- A number above 255 is taken for an octet, modulo 256, and a negative length sets a
byte in front of the array. -/
theorem overlooked_masks :
    ¬ V4Sound "10.0.0.300".toList ∧ ¬ V4Sound "10.0.0.0/-8".toList ∧
      clearUnused (-8) (v4Addb "10.0.0.0/-8".toList).bytes = none := by
  have hlarge : ShapedV4 "10.0.0.300".toList := ⟨by decide, trivial⟩
  have hsigned : ShapedV4 "10.0.0.0/-8".toList :=
    ⟨by decide +kernel, by decide +kernel, by decide +kernel, by decide +kernel⟩
  have hoctet : SlipsV4 "10.0.0.300".toList :=
    .inl ⟨"300".toList, by decide +kernel, .inr (by decide)⟩
  have hsign : SlipsV4 "10.0.0.0/-8".toList :=
    .inr ⟨"-8".toList, by decide +kernel, .inl ⟨'-', by decide, by decide⟩⟩
  exact ⟨fun h => h.not_slips hlarge hoctet, fun h => h.not_slips hsigned hsign,
    by decide +kernel⟩

end Ircd
