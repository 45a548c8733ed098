import Ircd.V6Masks

/-!
`inet_ntop6` of `irc_string.c`, and `try_parse_v6_netmask` on the text it writes.

The text is one that the other function reads, unless the last two words are written as
an IPv4 address; it takes such a text for a host name.
-/

namespace Ircd

open List
open Bytes (highBits)

/-! ### Writing an address -/

/-- `inetntoa`. -/
def inetntoa (src : List Nat) : CStr :=
  ['.'].intercalate ((src.take 4).map (Nat.toDigits 10))

/-- `inet_ntop4`. -/
def inetNtop4 (src : List Nat) (size : Nat) : Option CStr :=
  if size < 16 then none else some (inetntoa src)

/-- A run of zero words. -/
structure ZeroRun where
  base : Nat
  len : Nat
  deriving DecidableEq, Repr

/-- `best = cur`, if `cur` is longer. -/
def ZeroRun.better (cur : ZeroRun) : Option ZeroRun → Option ZeroRun
  | none => some cur
  | some best => if cur.len > best.len then some cur else some best

/-- The loop that looks for the longest run, and the test behind it. -/
def bestRun : Nat → List Nat → Option ZeroRun → Option ZeroRun → Option ZeroRun
  | _, [], best, none => best
  | _, [], best, some cur => cur.better best
  | i, w :: words, best, none =>
    if w = 0 then bestRun (i + 1) words best (some ⟨i, 1⟩) else bestRun (i + 1) words best none
  | i, w :: words, best, some cur =>
    if w = 0 then bestRun (i + 1) words best (some ⟨cur.base, cur.len + 1⟩)
    else bestRun (i + 1) words (cur.better best) none

/-- The run that `::` stands for: at least two words. -/
def gapRun (words : List Nat) : Option ZeroRun :=
  (bestRun 0 words none none).filter fun best => 2 ≤ best.len

def ZeroRun.covers (r : ZeroRun) (i : Nat) : Prop := r.base ≤ i ∧ i < r.base + r.len

instance (r : ZeroRun) (i : Nat) : Decidable (r.covers i) := inferInstanceAs (Decidable (_ ∧ _))

/-- Whether the rest is written as an IPv4 address. -/
def EndsInQuad (words : List Nat) (best : Option ZeroRun) (i : Nat) : Prop :=
  i = 6 ∧ ∃ r ∈ best, r.base = 0 ∧ (r.len = 6 ∨ r.len = 5 ∧ words.getD 5 0 = 0xffff)

instance (words : List Nat) (best : Option ZeroRun) (i : Nat) :
    Decidable (EndsInQuad words best i) := inferInstanceAs (Decidable (_ ∧ _))

/-- The loop that writes the words from `i` on, behind what `tmp` holds. -/
def writeWords (src words : List Nat) (best : Option ZeroRun) :
    Nat → List Nat → CStr → Option CStr
  | _, [], tmp => some tmp
  | i, w :: rest, tmp =>
    if ∃ r ∈ best, r.covers i then
      writeWords src words best (i + 1) rest
        (if best.map ZeroRun.base = some i then tmp ++ [':'] else tmp)
    else
      let tmp := if i = 0 then tmp else tmp ++ [':']
      if EndsInQuad words best i then
        (inetNtop4 (src.drop 12) (46 - tmp.length)).map (tmp ++ ·)
      else writeWords src words best (i + 1) rest (tmp ++ Nat.toDigits 16 w)

def wordsOf (src : In6Addr) : List Nat :=
  (List.range 8).map fun i => src.bytes.getD (2 * i) 0 <<< 8 ||| src.bytes.getD (2 * i + 1) 0

/-- `inet_ntop6`. -/
def inetNtop6 (src : In6Addr) (size : Nat) : Option CStr :=
  let words := wordsOf src
  let best := gapRun words
  match writeWords src.bytes words best 0 words [] with
  | none => none
  | some tmp =>
    let tmp := if ∃ r ∈ best, r.base + r.len = 8 then tmp ++ [':'] else tmp
    if tmp.length + 1 > size then none else some tmp

/-! ### Hexadecimal digits -/

theorem hexVal_digitChar {d : Nat} (hd : d < 16) : hexVal d.digitChar = some d := by
  have hall : ∀ d : Fin 16, hexVal d.1.digitChar = some d.1 := by decide
  exact hall ⟨d, hd⟩

theorem readHex_concat (acc : Nat) (s : CStr) (c : Char) :
    readHex acc (s ++ [c]) = readHex acc s * 16 + (hexVal c).getD 0 := by
  induction s generalizing acc with
  | nil => rfl
  | cons d s ih => rw [cons_append, readHex, ih, readHex]

theorem readHex_toDigits (w : Nat) : readHex 0 (Nat.toDigits 16 w) = w := by
  induction w using Nat.strongRecOn with
  | ind w ih =>
    by_cases hlt : w < 16
    · rw [Nat.toDigits_of_lt_base hlt, readHex, readHex, hexVal_digitChar hlt]
      simp
    · have hmod : w % 16 < 16 := Nat.mod_lt _ (by norm_num)
      rw [Nat.toDigits_of_base_le (by norm_num) (by omega), readHex_concat,
        ih (w / 16) (by omega), hexVal_digitChar hmod, Option.getD_some]
      omega

theorem isSome_hexVal_toDigits (w : Nat) : ∀ c ∈ Nat.toDigits 16 w, (hexVal c).isSome = true := by
  induction w using Nat.strongRecOn with
  | ind w ih =>
    intro c hc
    by_cases hlt : w < 16
    · rw [Nat.toDigits_of_lt_base hlt, mem_singleton] at hc
      rw [hc, hexVal_digitChar hlt, Option.isSome_some]
    · rw [Nat.toDigits_of_base_le (by norm_num) (by omega), mem_append,
        mem_singleton] at hc
      rcases hc with hinit | rfl
      · exact ih (w / 16) (by omega) c hinit
      · rw [hexVal_digitChar (Nat.mod_lt _ (by norm_num)), Option.isSome_some]

theorem isGroup_toDigits {w : Nat} (hw : w < 2 ^ 16) : IsGroup (Nat.toDigits 16 w) :=
  ⟨Nat.toDigits_ne_nil,
    (Nat.length_toDigits_le_iff (by norm_num) (by norm_num)).mpr (by norm_num at hw ⊢; exact hw),
    isSome_hexVal_toDigits w⟩

theorem isGroup_of_mem {ws : List Nat} (hws : ∀ w ∈ ws, w < 2 ^ 16) :
    ∀ g ∈ ws.map (Nat.toDigits 16), IsGroup g := by
  intro g hg
  obtain ⟨w, hw, rfl⟩ := List.mem_map.mp hg
  exact isGroup_toDigits (hws w hw)

theorem map_readHex_toDigits (ws : List Nat) :
    (ws.map (Nat.toDigits 16)).map (readHex 0) = ws := by
  rw [map_map]
  exact (map_congr_left fun w _ => readHex_toDigits w).trans (map_id ws)

/-! ### The words -/

theorem groupBytes_word {a b : Nat} (hb : b < 256) : groupBytes (a <<< 8 ||| b) = [a, b] := by
  have hword : a <<< 8 ||| b = a * 256 + b := by
    rw [← Nat.shiftLeft_add_eq_or_of_lt hb, Nat.shiftLeft_eq]
  rw [hword, groupBytes]
  congr 1
  · omega
  · congr 1
    omega

theorem flatMap_pairs (bs : List Nat) {k : Nat} (hk : 2 * k ≤ bs.length) :
    ((List.range k).flatMap fun i => [bs.getD (2 * i) 0, bs.getD (2 * i + 1) 0]) =
      bs.take (2 * k) := by
  induction k with
  | zero => rfl
  | succ k ih =>
    have hfirst : 2 * k < bs.length := by omega
    have hsecond : 2 * k + 1 < bs.length := by omega
    rw [range_succ, flatMap_append, ih (by omega),
      show 2 * (k + 1) = 2 * k + 1 + 1 from rfl, take_add_one, take_add_one,
        append_assoc]
    simp [hfirst, hsecond]

theorem addressOf_wordsOf (src : In6Addr) : addressOf (wordsOf src) = src := by
  have hbytes : (wordsOf src).flatMap groupBytes = src.bytes := by
    have hword : ∀ i, groupBytes (src.bytes.getD (2 * i) 0 <<< 8 ||| src.bytes.getD (2 * i + 1) 0) =
        [src.bytes.getD (2 * i) 0, src.bytes.getD (2 * i + 1) 0] :=
      fun i => groupBytes_word (src.getD_lt _)
    simp only [wordsOf, flatMap_map, hword]
    rw [flatMap_pairs src.bytes (by rw [src.length_eq]), take_of_length_le]
    rw [src.length_eq]
  rw [addressOf, hbytes, Bytes.Block.ofList_bytes]

theorem wordsOf_lt (src : In6Addr) : ∀ w ∈ wordsOf src, w < 2 ^ 16 := by
  intro w hw
  obtain ⟨i, -, rfl⟩ := List.mem_map.mp hw
  have hfirst := src.getD_lt (2 * i)
  have hsecond := src.getD_lt (2 * i + 1)
  rw [← Nat.shiftLeft_add_eq_or_of_lt hsecond, Nat.shiftLeft_eq]
  omega

/-! ### The gap -/

def ZeroRun.Within (r : ZeroRun) (words : List Nat) : Prop :=
  r.base + r.len ≤ words.length ∧ ∀ i, r.covers i → words.getD i 0 = 0

theorem ZeroRun.within_better {words : List Nat} {cur : ZeroRun} {best : Option ZeroRun}
    (hcur : cur.Within words) (hbest : ∀ r ∈ best, r.Within words) :
    ∀ r ∈ cur.better best, r.Within words := by
  intro r hr
  cases best with
  | none =>
    cases hr
    exact hcur
  | some best =>
    simp only [ZeroRun.better] at hr
    split_ifs at hr
    · cases hr
      exact hcur
    · exact hbest r hr

theorem bestRun_within (front : List Nat) {words back : List Nat} {best cur : Option ZeroRun}
    (hwords : words = front ++ back) (hbest : ∀ r ∈ best, r.Within words)
    (hcur : ∀ r ∈ cur, r.Within words ∧ r.base + r.len = front.length) :
    ∀ r ∈ bestRun front.length back best cur, r.Within words := by
  induction back generalizing front best cur with
  | nil =>
    cases cur with
    | none => exact hbest
    | some cur => exact ZeroRun.within_better (hcur cur rfl).1 hbest
  | cons w back ih =>
    have hnext : words = (front ++ [w]) ++ back := by rw [hwords]; simp
    have hword : words.getD front.length 0 = w := by rw [hwords]; simp
    have hroom : front.length + 1 ≤ words.length := by rw [hwords]; simp
    have hlen : (front ++ [w]).length = front.length + 1 := by simp
    have hstep := @ih (front ++ [w])
    rw [hlen] at hstep
    cases cur with
    | none =>
      unfold bestRun
      split_ifs with hzero
      · apply hstep hnext hbest
        rintro r ⟨⟩
        refine ⟨⟨hroom, ?_⟩, rfl⟩
        intro i hi
        have hi' : i = front.length := by
          simp only [ZeroRun.covers] at hi
          omega
        rw [hi', hword, hzero]
      · exact hstep hnext hbest (by simp)
    | some cur =>
      obtain ⟨⟨hle, hcovers⟩, hend⟩ := hcur cur rfl
      unfold bestRun
      split_ifs with hzero
      · apply hstep hnext hbest
        rintro r ⟨⟩
        refine ⟨⟨by dsimp only; omega, ?_⟩, by dsimp only; omega⟩
        intro i hi
        by_cases hlast : i = front.length
        · rw [hlast, hword, hzero]
        · apply hcovers
          simp only [ZeroRun.covers] at hi ⊢
          omega
      · exact hstep hnext (ZeroRun.within_better ⟨hle, hcovers⟩ hbest) (by simp)

theorem gapRun_within {words : List Nat} {r : ZeroRun} (h : gapRun words = some r) :
    2 ≤ r.len ∧ r.Within words := by
  rw [gapRun, Option.filter_eq_some_iff, decide_eq_true_eq] at h
  exact ⟨h.2, bestRun_within [] rfl (by simp) (by simp) r h.1⟩

theorem ZeroRun.Within.split {words : List Nat} {r : ZeroRun} (h : r.Within words) :
    words = words.take r.base ++ (List.replicate r.len 0 ++ words.drop (r.base + r.len)) := by
  obtain ⟨hle, hcovers⟩ := h
  have hgap : (words.drop r.base).take r.len = List.replicate r.len 0 := by
    rw [eq_replicate_iff]
    constructor
    · rw [length_take, length_drop]
      omega
    · intro w hw
      obtain ⟨i, hi, rfl⟩ := List.mem_take_iff_getElem.mp hw
      rw [length_drop] at hi
      have hzero := hcovers (r.base + i) ⟨by omega, by omega⟩
      rwa [getD_eq_getElem?_getD, getElem?_eq_getElem (by omega), Option.getD_some,
        ← getElem_drop] at hzero
  rw [← hgap, ← drop_drop, take_append_drop, take_append_drop]

/-! ### Writing without an IPv4 part -/

theorem intercalate_colon (w : Nat) (ws : List Nat) :
    [':'].intercalate ((w :: ws).map (Nat.toDigits 16)) =
      Nat.toDigits 16 w ++ ws.flatMap fun w => ':' :: Nat.toDigits 16 w := by
  induction ws generalizing w with
  | nil => simp [intercalate_singleton]
  | cons v ws ih =>
    rw [map_cons, map_cons, intercalate_cons_cons, ← map_cons, ih,
      flatMap_cons, append_assoc]
    rfl

section Writing

variable {src words ws rest : List Nat} {best : Option ZeroRun} {r : ZeroRun} {i : Nat}
  {tmp : CStr}

variable (src rest tmp) in
theorem writeWords_plain (hpos : i ≠ 0)
    (hout : ∀ j, i ≤ j → j < i + ws.length → ¬ ∃ r ∈ best, r.covers j)
    (hquad : ∀ j, ¬ EndsInQuad words best j) :
    writeWords src words best i (ws ++ rest) tmp =
      writeWords src words best (i + ws.length) rest
        (tmp ++ ws.flatMap fun w => ':' :: Nat.toDigits 16 w) := by
  induction ws generalizing i tmp with
  | nil => simp
  | cons w ws ih =>
    rw [length_cons] at hout
    rw [cons_append, writeWords, if_neg (hout i (le_refl i) (by omega))]
    simp only [if_neg hpos, if_neg (hquad i)]
    rw [ih _ (by omega) fun j hle hlt => hout j (by omega) (by omega), length_cons,
      flatMap_cons, Nat.add_right_comm, Nat.add_assoc]
    simp

variable (src words rest) in
theorem writeWords_front (hout : ∀ j < ws.length, ¬ ∃ r ∈ best, r.covers j)
    (hquad : ∀ j, ¬ EndsInQuad words best j) :
    writeWords src words best 0 (ws ++ rest) [] =
      writeWords src words best ws.length rest ([':'].intercalate (ws.map (Nat.toDigits 16))) := by
  cases ws with
  | nil => rfl
  | cons w ws =>
    rw [length_cons] at hout
    rw [cons_append, writeWords, if_neg (hout 0 (by omega))]
    simp only [if_true, if_neg (hquad 0), nil_append]
    rw [writeWords_plain src rest _ (by omega) (fun j hle hlt => hout j (by omega)) hquad,
      intercalate_colon, length_cons, Nat.add_comm]

theorem writeWords_gap (hin : r.base < i) (hend : i + ws.length ≤ r.base + r.len) :
    writeWords src words (some r) i (ws ++ rest) tmp =
      writeWords src words (some r) (i + ws.length) rest tmp := by
  induction ws generalizing i with
  | nil => rfl
  | cons w ws ih =>
    rw [length_cons] at hend
    have hcovers : ∃ s ∈ some r, s.covers i := ⟨r, rfl, by omega, by omega⟩
    have hbase : ¬ (some r).map ZeroRun.base = some i := by
      simp only [Option.map_some, Option.some.injEq]
      omega
    rw [cons_append, writeWords, if_pos hcovers, if_neg hbase,
      ih (by omega) (by omega), length_cons, Nat.add_right_comm, Nat.add_assoc]

theorem writeWords_enter (hpos : 0 < r.len) {w : Nat} :
    writeWords src words (some r) r.base (w :: rest) tmp =
      writeWords src words (some r) (r.base + 1) rest (tmp ++ [':']) := by
  have hcovers : ∃ s ∈ some r, s.covers r.base := ⟨r, rfl, by omega, by omega⟩
  rw [writeWords, if_pos hcovers, if_pos (by simp)]

end Writing

theorem writeWords_around (src front gap back : List Nat) (w : Nat) {words : List Nat} {r : ZeroRun}
    (hbase : r.base = front.length) (hlen : r.len = gap.length + 1)
    (hquad : ∀ j, ¬ EndsInQuad words (some r) j) :
    writeWords src words (some r) 0 (front ++ w :: (gap ++ back)) [] =
      some ([':'].intercalate (front.map (Nat.toDigits 16)) ++ [':'] ++
        back.flatMap fun w => ':' :: Nat.toDigits 16 w) := by
  have hcovers : ∀ j, (∃ s ∈ some r, s.covers j) → r.base ≤ j ∧ j < r.base + r.len := by
    rintro j ⟨s, ⟨⟩, hs⟩
    exact hs
  have hout : ∀ j < front.length, ¬ ∃ s ∈ some r, s.covers j := by
    intro j hj h
    have hin := hcovers j h
    omega
  have hbehind : ∀ j, r.base + 1 + gap.length ≤ j → j < r.base + 1 + gap.length + back.length →
      ¬ ∃ s ∈ some r, s.covers j := by
    intro j hle _ h
    have hin := hcovers j h
    omega
  have hrest := writeWords_plain src [] ([':'].intercalate (front.map (Nat.toDigits 16)) ++ [':'])
    (by omega) hbehind hquad
  rw [append_nil] at hrest
  rw [writeWords_front src words _ hout hquad, ← hbase, writeWords_enter (by omega),
    writeWords_gap (by omega) (by omega), hrest]
  rfl

theorem writeWords_all {src words : List Nat} :
    writeWords src words none 0 words [] =
      some ([':'].intercalate (words.map (Nat.toDigits 16))) := by
  have hall : writeWords src words none 0 (words ++ []) [] =
      writeWords src words none words.length []
        ([':'].intercalate (words.map (Nat.toDigits 16))) :=
    writeWords_front src words [] (by simp) (by simp [EndsInQuad])
  rw [append_nil] at hall
  rw [hall]
  rfl

theorem closing_eq {p : Prop} [Decidable p] {back : List Nat} {text : CStr} (hp : p ↔ back = []) :
    (if p then text ++ [':'] ++ (back.flatMap fun w => ':' :: Nat.toDigits 16 w) ++ [':']
      else text ++ [':'] ++ back.flatMap fun w => ':' :: Nat.toDigits 16 w) =
      text ++ ':' :: ':' :: [':'].intercalate (back.map (Nat.toDigits 16)) := by
  cases back with
  | nil =>
    rw [if_pos (hp.mpr rfl)]
    simp
  | cons w back =>
    rw [if_neg (by simp [hp]), intercalate_colon, flatMap_cons]
    simp

theorem exists_text {src : In6Addr} (hquad : ∀ j, ¬ EndsInQuad (wordsOf src)
    (gapRun (wordsOf src)) j) :
    ∃ t : V6Text, t.address = src ∧
      ∀ size, inetNtop6 src size = if t.text.length + 1 > size then none else some t.text := by
  have hsmall := wordsOf_lt src
  have haddr := addressOf_wordsOf src
  have height : (wordsOf src).length = 8 := by simp [wordsOf]
  unfold inetNtop6
  generalize wordsOf src = words at hquad hsmall haddr height
  cases hgap : gapRun words with
  | none =>
    refine ⟨.full (words.map (Nat.toDigits 16)) (isGroup_of_mem hsmall)
      (by rw [length_map, height]), ?_, ?_⟩
    · rw [V6Text.address, V6Text.words, map_readHex_toDigits, haddr]
    · intro size
      have hends : ¬ ∃ s ∈ (none : Option ZeroRun), s.base + s.len = 8 := by simp
      simp only [hgap, writeWords_all, if_neg hends]
      rfl
  | some r =>
    obtain ⟨hlong, hwithin⟩ := gapRun_within hgap
    have hroom := hwithin.1
    have hsplit := hwithin.split
    obtain ⟨m, hm⟩ : ∃ m, r.len = m + 1 := ⟨r.len - 1, by omega⟩
    set front := words.take r.base with hfront
    set back := words.drop (r.base + r.len) with hback
    have hflen : front.length = r.base := by
      rw [hfront, length_take]
      omega
    have hblen : back.length = 8 - (r.base + r.len) := by rw [hback, length_drop, height]
    refine ⟨.gap (front.map (Nat.toDigits 16)) (back.map (Nat.toDigits 16)) ?_ ?_, ?_, ?_⟩
    · rw [← map_append]
      apply isGroup_of_mem
      intro w hw
      rcases List.mem_append.mp hw with h | h
      · exact hsmall w (mem_of_mem_take h)
      · exact hsmall w (mem_of_mem_drop h)
    · rw [length_map, length_map]
      omega
    · have hzeros : 8 - front.length - back.length = r.len := by omega
      rw [V6Text.address, V6Text.words, map_readHex_toDigits, map_readHex_toDigits,
        length_map, length_map, hzeros, append_assoc, ← hsplit, haddr]
    · intro size
      rw [hgap] at hquad
      have hwrite := writeWords_around src.bytes front (List.replicate m 0) back 0 hflen.symm
        (by rw [length_replicate, hm]) hquad
      rw [← cons_append, ← replicate_succ, ← hm, ← hsplit] at hwrite
      simp only [hgap, hwrite]
      have hends : (∃ s ∈ some r, s.base + s.len = 8) ↔ back = [] := by
        rw [← length_eq_zero_iff, hblen]
        constructor
        · rintro ⟨s, ⟨⟩, hs⟩
          omega
        · exact fun h => ⟨r, rfl, by omega⟩
      rw [closing_eq hends]
      rfl

/-! ### Writing an IPv4 part -/

/-- The first five words are zero, and the sixth is `ffff`, or it is zero and the seventh
is not. -/
def Encapsulated (words : List Nat) : Prop :=
  words.take 5 = [0, 0, 0, 0, 0] ∧
    (words.getD 5 0 = 0xffff ∨ words.getD 5 0 = 0 ∧ words.getD 6 0 ≠ 0)

instance (words : List Nat) : Decidable (Encapsulated words) :=
  inferInstanceAs (Decidable (_ ∧ _))

theorem five_zeros {words : List Nat} (height : words.length = 8)
    (hzeros : words.take 5 = [0, 0, 0, 0, 0]) : ∃ a b c, words = [0, 0, 0, 0, 0, a, b, c] := by
  obtain ⟨a, b, c, hrest⟩ := List.length_eq_three.mp (show (words.drop 5).length = 3 by simp
      [height])
  exact ⟨a, b, c, by rw [← take_append_drop 5 words, hzeros, hrest]; rfl⟩

theorem gapRun_five (b c : Nat) : gapRun [0, 0, 0, 0, 0, 0xffff, b, c] = some ⟨0, 5⟩ := by
  by_cases hb : b = 0 <;> by_cases hc : c = 0 <;> simp [gapRun, bestRun, ZeroRun.better, hb, hc]

theorem gapRun_six {b : Nat} (hb : b ≠ 0) (c : Nat) :
    gapRun [0, 0, 0, 0, 0, 0, b, c] = some ⟨0, 6⟩ := by
  by_cases hc : c = 0 <;> simp [gapRun, bestRun, ZeroRun.better, hb, hc]

theorem gapRun_seven (c : Nat) : gapRun [0, 0, 0, 0, 0, 0, 0, c] ≠ some ⟨0, 6⟩ := by
  by_cases hc : c = 0 <;> simp [gapRun, bestRun, ZeroRun.better, hc]

theorem Encapsulated.of_endsInQuad {words : List Nat} (height : words.length = 8) {i : Nat}
    (h : EndsInQuad words (gapRun words) i) : Encapsulated words := by
  obtain ⟨-, ⟨base, len⟩, hr, hbase, hlen⟩ := h
  dsimp only at hbase hlen
  subst hbase
  have hfive : 5 ≤ len := by omega
  obtain ⟨-, -, hcovers⟩ := gapRun_within hr
  have hzeros : words.take 5 = [0, 0, 0, 0, 0] := by
    change words.take 5 = List.replicate 5 0
    rw [eq_replicate_iff]
    constructor
    · rw [length_take, height]
      rfl
    · intro w hw
      obtain ⟨i, hi, rfl⟩ := List.mem_take_iff_getElem.mp hw
      have hzero := hcovers i ⟨Nat.zero_le i, by dsimp only; omega⟩
      rwa [getD_eq_getElem?_getD, getElem?_eq_getElem (by omega), Option.getD_some]
        at hzero
  refine ⟨hzeros, ?_⟩
  rcases hlen with rfl | ⟨-, hffff⟩
  · have hsixth : words.getD 5 0 = 0 := hcovers 5 ⟨by norm_num, by norm_num⟩
    refine .inr ⟨hsixth, ?_⟩
    intro hseventh
    obtain ⟨a, b, c, rfl⟩ := five_zeros height hzeros
    simp only [getD_cons_succ, getD_cons_zero] at hsixth hseventh
    subst hsixth hseventh
    exact gapRun_seven c hr
  · exact .inl hffff

theorem Encapsulated.text {src : In6Addr} (h : Encapsulated (wordsOf src)) :
    ∃ front, (front = "::".toList ∨ front = "::ffff:".toList) ∧
      ∀ size, inetNtop6 src size =
        if (front ++ inetntoa (src.bytes.drop 12)).length + 1 > size then none
        else some (front ++ inetntoa (src.bytes.drop 12)) := by
  obtain ⟨hzeros, hlast⟩ := h
  have height : (wordsOf src).length = 8 := by simp [wordsOf]
  unfold inetNtop6
  obtain ⟨a, b, c, hwords⟩ := five_zeros height hzeros
  rw [hwords] at hlast ⊢
  simp only [getD_cons_succ, getD_cons_zero] at hlast
  rcases hlast with rfl | ⟨rfl, hb⟩
  · refine ⟨"::ffff:".toList, .inr rfl, ?_⟩
    intro size
    have hffff : Nat.toDigits 16 0xffff = "ffff".toList := by decide
    have hwrite : writeWords src.bytes [0, 0, 0, 0, 0, 0xffff, b, c] (some ⟨0, 5⟩) 0
        [0, 0, 0, 0, 0, 0xffff, b, c] [] =
          some ("::ffff:".toList ++ inetntoa (src.bytes.drop 12)) := by
      simp [writeWords, ZeroRun.covers, EndsInQuad, inetNtop4, hffff]
    have hends : ¬ ∃ r ∈ some (⟨0, 5⟩ : ZeroRun), r.base + r.len = 8 := by simp
    simp only [gapRun_five, hwrite, if_neg hends]
  · refine ⟨"::".toList, .inl rfl, ?_⟩
    intro size
    have hwrite : writeWords src.bytes [0, 0, 0, 0, 0, 0, b, c] (some ⟨0, 6⟩) 0
        [0, 0, 0, 0, 0, 0, b, c] [] = some ("::".toList ++ inetntoa (src.bytes.drop 12)) := by
      simp [writeWords, ZeroRun.covers, EndsInQuad, inetNtop4]
    have hends : ¬ ∃ r ∈ some (⟨0, 6⟩ : ZeroRun), r.base + r.len = 8 := by simp
    simp only [gapRun_six hb, hwrite, if_neg hends]

theorem v6Loop_dot {st : V6Parse} {bits : Nat} {prev : Option Char} {text : CStr}
    (hdot : '.' ∈ text) (hslash : '/' ∉ text) : v6Loop st bits prev text = none := by
  induction text generalizing st bits prev with
  | nil => cases hdot
  | cons c p ih =>
    rw [mem_cons, not_or] at hslash
    rcases List.mem_cons.mp hdot with rfl | hrest
    · rfl
    · have hne : p ≠ [] := ne_nil_of_mem hrest
      have hnext : ∀ st' bits' prev', v6Loop st' bits' prev' p = none :=
        fun _ _ _ => ih hrest hslash.2
      unfold v6Loop
      cases hexVal c with
      | some v => simp [hnext]
      | none =>
        have hslash' : ¬ c = '/' := fun heq => hslash.1 heq.symm
        cases st.finsert <;> simp [hnext, hne, hslash']

theorem isDigit_toDigits {c : Char} {n : Nat} (h : c ∈ Nat.toDigits 10 n) : isDigit c = true := by
  have hdigit := Nat.isDigit_of_mem_toDigits (by norm_num) (by norm_num) h
  simp only [Char.isDigit, ge_iff_le, Bool.and_eq_true, decide_eq_true_eq] at hdigit
  simp only [isDigit, Bool.and_eq_true, decide_eq_true_eq]
  exact hdigit

theorem inetntoa_chars {src : List Nat} (hlen : src.length = 4) :
    '.' ∈ inetntoa src ∧ ∀ c ∈ inetntoa src, isOctetChar c = true := by
  constructor
  · obtain ⟨a, b, c, d, rfl⟩ := List.length_eq_four.mp hlen
    rw [inetntoa, take_succ_cons, take_succ_cons, map_cons, map_cons,
      intercalate_cons_cons]
    simp
  · apply octetChars_intercalate
    intro w hw c hc
    obtain ⟨b, -, rfl⟩ := List.mem_map.mp hw
    exact isDigit_toDigits hc

theorem Encapsulated.parse {src : In6Addr} (h : Encapsulated (wordsOf src)) {size : Nat}
    {text : CStr} (htext : inetNtop6 src size = some text) : tryParseV6Netmask text = .host := by
  obtain ⟨front, hfront, hwrites⟩ := h.text
  rw [hwrites] at htext
  split_ifs at htext with hlong
  have hfour : (src.bytes.drop 12).length = 4 := by rw [length_drop, src.length_eq]
  obtain ⟨hdot, hoctets⟩ := inetntoa_chars hfour
  have hslash : '/' ∉ front ++ inetntoa (src.bytes.drop 12) := by
    rw [mem_append, not_or]
    constructor
    · rcases hfront with rfl | rfl <;> decide
    · intro hmem
      have hoctet := hoctets '/' hmem
      revert hoctet
      decide
  have hloop : v6Loop v6Start 128 none (front ++ inetntoa (src.bytes.drop 12)) = none :=
    v6Loop_dot (mem_append_right front hdot) hslash
  rw [v6Start] at hloop
  rw [← Option.some.inj htext, tryParseV6Netmask, hloop]

/-! ### The size of the buffer -/

/-! ### Where the texts are right -/

def ReadBack (src : In6Addr) (text : CStr) : Prop :=
  tryParseV6Netmask text = .ipv6 src 128 ∧ ∀ i ∈ v6Indices text, i < 8

theorem readBack_iff {src : In6Addr} {size : Nat} {text : CStr}
    (htext : inetNtop6 src size = some text) :
    ReadBack src text ↔ ¬ Encapsulated (wordsOf src) := by
  constructor
  · rintro ⟨hread, -⟩ hquad
    rw [hquad.parse htext] at hread
    cases hread
  · intro hplain
    have height : (wordsOf src).length = 8 := by simp [wordsOf]
    obtain ⟨t, haddr, hwrites⟩ := exists_text fun j h => hplain (.of_endsInQuad height h)
    rw [hwrites] at htext
    split_ifs at htext with hlong
    obtain ⟨hread, hin⟩ := t.parse_address
    rw [haddr] at hread
    rw [← Option.some.inj htext]
    exact ⟨hread, hin⟩

/-- The texts of masks: an address with a prefix length, or what `inet_ntop6` has
written. -/
inductive MaskText where
  | given (t : V6Text) (w : CStr) (digits : w ≠ [] ∧ ∀ c ∈ w, isDigit c = true)
      (bound : readDigits 0 w ≤ 128)
  | written (src : In6Addr) (size : Nat) (text : CStr) (wrote : inetNtop6 src size = some text)

def MaskText.Right : MaskText → Prop
  | given t w _ _ => t.MaskRight w
  | written src _ text _ => ReadBack src text

def MaskText.Sound : MaskText → Prop
  | given t w _ _ => t.FillsRight (readDigits 0 w)
  | written src _ _ _ => ¬ Encapsulated (wordsOf src)

theorem mask_text_right_iff (text : MaskText) : text.Right ↔ text.Sound := by
  cases text with
  | given t w digits bound => exact t.maskRight_iff digits.1 digits.2 bound
  | written src size text wrote => exact readBack_iff wrote

/-- `fe80::1`. -/
def linkLocal : V6Text :=
  .gap ["fe80".toList] ["1".toList] (by decide) (by decide)

/-- `1:2:3:4:5:6:7:8`. -/
def eightGroups : V6Text :=
  .full ["1".toList, "2".toList, "3".toList, "4".toList, "5".toList, "6".toList, "7".toList,
    "8".toList] (by decide) rfl

/-- `fe80::1/64` is read as `fe80:0:0:1::/64`. An address of eight groups with `/64` is taken
for a host name, and with `/32` the function leaves `d`. What is written as `::1.2.3.4` is
taken for a host name. -/
theorem misread_masks :
    (linkLocal.text = "fe80::1".toList ∧
      tryParseV6Netmask "fe80::1/64".toList =
        .ipv6 (addressOf [0xfe80, 0, 0, 1, 0, 0, 0, 0]) 64 ∧
      ¬ linkLocal.MaskRight "64".toList) ∧
    (eightGroups.text = "1:2:3:4:5:6:7:8".toList ∧
      tryParseV6Netmask "1:2:3:4:5:6:7:8/64".toList = .host ∧
      8 ∈ v6Indices "1:2:3:4:5:6:7:8/32".toList ∧
      ¬ eightGroups.MaskRight "64".toList ∧ ¬ eightGroups.MaskRight "32".toList) ∧
    (inetNtop6 (addressOf [0, 0, 0, 0, 0, 0, 0x102, 0x304]) 46 = some "::1.2.3.4".toList ∧
      tryParseV6Netmask "::1.2.3.4".toList = .host ∧
      ¬ ReadBack (addressOf [0, 0, 0, 0, 0, 0, 0x102, 0x304]) "::1.2.3.4".toList) := by
  have hquad : tryParseV6Netmask "::1.2.3.4".toList = .host := rfl
  refine ⟨⟨by decide +kernel, rfl, ?_⟩, ⟨by decide +kernel, rfl, by decide +kernel, ?_, ?_⟩,
    by decide +kernel, hquad, ?_⟩
  · rw [V6Text.maskRight_iff _ (by decide) (List.all_eq_true.mp (by decide)) (by decide)]
    decide +kernel
  · rw [V6Text.maskRight_iff _ (by decide) (List.all_eq_true.mp (by decide)) (by decide)]
    decide +kernel
  · rw [V6Text.maskRight_iff _ (by decide) (List.all_eq_true.mp (by decide)) (by decide)]
    decide +kernel
  · rintro ⟨hread, -⟩
    rw [hquad] at hread
    cases hread

end Ircd
