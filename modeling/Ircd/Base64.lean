import Mathlib.Data.List.Basic
import Mathlib.Data.Nat.Bitwise
import Mathlib.Tactic.Ring

/-!
`base64_block` and `unbase64_block`, the text form of the keys that servers exchange.

Both read their input at an index and write a block that they allocate. An access outside of
either is a fault, `none`. `encode` and `decodeGroups` say what the loops write.

- `base64Block_eq`: the encoder never faults where the size of its block is an `int`.
- `unbase64Block_isSome_iff`: the decoder faults on the empty string and on no other.
- `base64_round_trip_iff`: where the round trip works.
-/

namespace Ircd

open List

/-- `base64_chars`. -/
def base64Chars : List UInt8 :=
  ("ABCDEFGHIJKLMNOPQRSTUVWXYZabcdefghijklmnopqrstuvwxyz0123456789+/=".toList).map fun c =>
    UInt8.ofNat c.toNat

/-- `base64_values`. -/
def base64Values : List Int := [
  -1, -1, -1, -1, -1, -1, -1, -1, -1, -1, -1, -1, -1, -1, -1, -1,
  -1, -1, -1, -1, -1, -1, -1, -1, -1, -1, -1, -1, -1, -1, -1, -1,
  -1, -1, -1, -1, -1, -1, -1, -1, -1, -1, -1, 62, -1, -1, -1, 63,
  52, 53, 54, 55, 56, 57, 58, 59, 60, 61, -1, -1, -1,  0, -1, -1,
  -1,  0,  1,  2,  3,  4,  5,  6,  7,  8,  9, 10, 11, 12, 13, 14,
  15, 16, 17, 18, 19, 20, 21, 22, 23, 24, 25, -1, -1, -1, -1, -1,
  -1, 26, 27, 28, 29, 30, 31, 32, 33, 34, 35, 36, 37, 38, 39, 40,
  41, 42, 43, 44, 45, 46, 47, 48, 49, 50, 51, -1, -1, -1, -1, -1] ++ List.replicate 128 (-1)

/-- `INT_MAX`. -/
def INT_MAX : Nat := 0x7fffffff

/-- The character `=`. -/
def padChar : UInt8 := 61

/-- `in[i - back]`. -/
def readBack (data : List UInt8) (i back : Nat) : Option UInt8 :=
  if back ≤ i then data[i - back]? else none

/-- A block from `MyMalloc`, with the bytes in front of `count`. -/
structure OutBlock where
  size : Nat
  bytes : List UInt8 := []
  deriving DecidableEq, Repr

namespace OutBlock

/-- `out[count++] = c`. -/
def put (o : OutBlock) (c : UInt8) : Option OutBlock :=
  if o.bytes.length < o.size then some { o with bytes := o.bytes ++ [c] } else none

/-- `out[count - back] = '='`, under a condition. -/
def padIf (o : OutBlock) (cond : Bool) (back : Nat) : Option OutBlock :=
  if !cond then some o
  else if back ≤ o.bytes.length then
    some { o with bytes := o.bytes.set (o.bytes.length - back) padChar }
  else none

/-- `count--` if the character is a `=`. -/
def unpad (o : OutBlock) (c : UInt8) : OutBlock :=
  if c = padChar then { o with bytes := o.bytes.dropLast } else o

/-- `out[count] = '\0'`, and what is then in front of it. -/
def finish (o : OutBlock) : Option (List UInt8) :=
  if o.bytes.length < o.size then some o.bytes else none

end OutBlock

/-- A number that is computed as an `int`. -/
def asInt (n : Nat) : Option Nat := if n ≤ INT_MAX then some n else none

/-- The 24 bits in `q_in`, six in each byte. -/
def base64Quantum (data : List UInt8) (i : Nat) : Option Nat := do
  let third ←
    if i + 2 < data.length then
      data[i + 2]?.map fun c => (c.toNat &&& 0xc0) <<< 2 ||| c.toNat
    else some 0
  let second ←
    if i + 1 < data.length then
      data[i + 1]?.map fun b => (b.toNat &&& 0x0f) <<< 10 ||| (b.toNat &&& 0xf0) <<< 12
    else some 0
  let first ← data[i]?.map fun a => (a.toNat &&& 0x03) <<< 20 ||| a.toNat <<< 22
  return (third ||| second ||| first) &&& 0x3f3f3f3f

/-- `base64_chars[v]`. -/
def base64Char (v : Nat) : UInt8 := base64Chars.getD v 0

/-- The loop of `base64_block`, with a bound on its turns. -/
def base64Loop (data : List UInt8) : Nat → Nat → OutBlock → Option (Nat × OutBlock)
  | 0, i, o => some (i, o)
  | turns + 1, i, o =>
    if i < data.length then do
      let q ← base64Quantum data i
      let o ← o.put (base64Char (q >>> 24))
      let o ← o.put (base64Char ((q >>> 16) &&& 0xff))
      let o ← o.put (base64Char ((q >>> 8) &&& 0xff))
      let o ← o.put (base64Char (q &&& 0xff))
      base64Loop data turns (i + 3) o
    else some (i, o)

/-- `base64_block`: the text in the block. -/
def base64Block (data : List UInt8) : Option (List UInt8) := do
  let len ← asInt data.length
  let size ← asInt ((len + 2 - (len + 2) % 3) / 3 * 4 + 1)
  let (i, o) ← base64Loop data len 0 { size }
  let o ← o.padIf (len < i) 1
  let o ← o.padIf (len + 1 < i) 2
  o.finish

/-- `base64_values[c]`, where it is the value of a digit. -/
def base64Digit (c : UInt8) : Nat :=
  let v := base64Values.getD c.toNat (-1)
  if v > -1 then v.toNat else 0

def unbase64Quantum (data : List UInt8) (i : Nat) : Option Nat := do
  let d ← data[i + 3]?
  let c ← data[i + 2]?
  let b ← data[i + 1]?
  let a ← data[i]?
  return base64Digit d ||| base64Digit c <<< 6 ||| base64Digit b <<< 12 ||| base64Digit a <<< 18

/-- The loop of `unbase64_block`, with a bound on its turns. -/
def unbase64Loop (data : List UInt8) : Nat → Nat → OutBlock → Option (Nat × OutBlock)
  | 0, i, o => some (i, o)
  | turns + 1, i, o =>
    if i + 3 < data.length then do
      let q ← unbase64Quantum data i
      let o ← o.put (UInt8.ofNat ((q >>> 16) &&& 0xff))
      let o ← o.put (UInt8.ofNat ((q >>> 8) &&& 0xff))
      let o ← o.put (UInt8.ofNat (q &&& 0xff))
      unbase64Loop data turns (i + 4) o
    else some (i, o)

/-- `unbase64_block`: the bytes in the block, and none where it makes no block. -/
def unbase64Block (data : List UInt8) : Option (List UInt8) := do
  let len ← asInt data.length
  if len % 4 ≠ 0 then return []
  let size ← asInt (len / 4 * 3 + 1)
  let (i, o) ← unbase64Loop data len 0 { size }
  let last ← readBack data i 1
  let o := o.unpad last
  let second ← readBack data i 2
  (o.unpad second).finish

/-- The block after these bytes were put. -/
def OutBlock.append (o : OutBlock) (l : List UInt8) : OutBlock := { o with bytes := o.bytes ++ l }

/-! ### What the encoder writes -/

def encodeGroup (a b c : Nat) : List UInt8 :=
  [base64Char (a / 4), base64Char (a % 4 * 16 + b / 16), base64Char (b % 16 * 4 + c / 64),
    base64Char (c % 64)]

/-- The characters that the loop writes, with zeros for the bytes that are missing. -/
def encodeGroups : List UInt8 → List UInt8
  | [] => []
  | [a] => encodeGroup a.toNat 0 0
  | [a, b] => encodeGroup a.toNat b.toNat 0
  | a :: b :: c :: rest => encodeGroup a.toNat b.toNat c.toNat ++ encodeGroups rest

theorem lor_eq_add {i y : Nat} (h : y < 2 ^ i) (x : Nat) : y ||| x <<< i = x * 2 ^ i + y := by
  rw [Nat.or_comm, ← Nat.shiftLeft_add_eq_or_of_lt h, Nat.shiftLeft_eq]

theorem byte_masks : ∀ c : Fin 256, c.val &&& 0xc0 = c.val / 64 * 64 ∧ c.val &&& 0x0f = c.val % 16 ∧
    c.val &&& 0xf0 = c.val / 16 * 16 ∧ c.val &&& 0x03 = c.val % 4 := by
  decide +kernel

theorem third_lt {c : Nat} (hc : c < 256) : c / 64 * 2 ^ 8 + c < 2 ^ 10 := by
  omega

theorem second_lt {b t : Nat} (hb : b < 256) (ht : t < 2 ^ 10) :
    (b / 16 * 2 ^ 6 + b % 16) * 2 ^ 10 + t < 2 ^ 20 := by
  omega

theorem quantum_eq {a b c : Nat} (ha : a < 256) (hb : b < 256) (hc : c < 256) :
    ((c &&& 0xc0) <<< 2 ||| c) ||| ((b &&& 0x0f) <<< 10 ||| (b &&& 0xf0) <<< 12) |||
      ((a &&& 0x03) <<< 20 ||| a <<< 22) =
    a * 2 ^ 22 + a % 4 * 2 ^ 20 + b / 16 * 2 ^ 16 + b % 16 * 2 ^ 10 + c / 64 * 2 ^ 8 + c := by
  have hthird : (c &&& 0xc0) <<< 2 ||| c = c / 64 * 2 ^ 8 + c := by
    have hshift : (c / 64 * 64) <<< 2 = (c / 64) <<< 8 := by
      rw [Nat.shiftLeft_eq, Nat.shiftLeft_eq]
      omega
    rw [(byte_masks ⟨c, hc⟩).1, hshift, Nat.or_comm]
    exact lor_eq_add hc _
  have hsecond : (b &&& 0x0f) <<< 10 ||| (b &&& 0xf0) <<< 12 =
      (b / 16 * 2 ^ 6 + b % 16) <<< 10 := by
    have hshift : (b / 16 * 16) <<< 12 = (b / 16) <<< 16 := by
      rw [Nat.shiftLeft_eq, Nat.shiftLeft_eq]
      omega
    have hlow : (b % 16) <<< 10 < 2 ^ 16 := by
      rw [Nat.shiftLeft_eq]
      omega
    rw [(byte_masks ⟨b, hb⟩).2.1, (byte_masks ⟨b, hb⟩).2.2.1, hshift, lor_eq_add hlow,
      Nat.shiftLeft_eq, Nat.shiftLeft_eq]
    omega
  have hfirst : (a &&& 0x03) <<< 20 ||| a <<< 22 = (a * 2 ^ 2 + a % 4) <<< 20 := by
    have hlow : (a % 4) <<< 20 < 2 ^ 22 := by
      rw [Nat.shiftLeft_eq]
      omega
    rw [(byte_masks ⟨a, ha⟩).2.2.2, lor_eq_add hlow, Nat.shiftLeft_eq, Nat.shiftLeft_eq]
    omega
  rw [hthird, hsecond, hfirst, lor_eq_add (third_lt hc), lor_eq_add (second_lt hb (third_lt hc))]
  ring

theorem quantum_digits {a b c q : Nat} (ha : a < 256) (hb : b < 256) (hc : c < 256)
    (hq : q = a * 2 ^ 22 + a % 4 * 2 ^ 20 + b / 16 * 2 ^ 16 + b % 16 * 2 ^ 10 + c / 64 * 2 ^ 8 +
      c) :
    q / 2 ^ 24 % 64 = a / 4 ∧ q / 2 ^ 16 % 64 = a % 4 * 16 + b / 16 ∧
      q / 2 ^ 8 % 64 = b % 16 * 4 + c / 64 ∧ q % 64 = c % 64 := by
  have h₁ : q / 2 ^ 24 = a / 4 := by omega
  have h₂ : q / 2 ^ 16 = a / 4 * 256 + a % 4 * 80 + b / 16 := by omega
  have h₃ : q / 2 ^ 8 = a * 2 ^ 14 + a % 4 * 2 ^ 12 + b / 16 * 2 ^ 8 + b % 16 * 4 + c / 64 := by
    omega
  refine ⟨?_, ?_, ?_, ?_⟩
  · rw [h₁]
    omega
  · rw [h₂]
    omega
  · rw [h₃]
    omega
  · clear h₁ h₂ h₃
    omega

theorem masked_byte (q : Nat) {shift mask : Nat} (h : 0x3f3f3f3f >>> shift &&& mask = 0x3f) :
    (q &&& 0x3f3f3f3f) >>> shift &&& mask = q / 2 ^ shift % 64 := by
  rw [Nat.shiftRight_and_distrib, Nat.and_assoc, h, Nat.shiftRight_eq_div_pow]
  exact Nat.and_two_pow_sub_one_eq_mod _ 6

theorem quantum_chars {a b c q : Nat} (ha : a < 256) (hb : b < 256) (hc : c < 256)
    (hq : q = a * 2 ^ 22 + a % 4 * 2 ^ 20 + b / 16 * 2 ^ 16 + b % 16 * 2 ^ 10 + c / 64 * 2 ^ 8 +
      c) :
    [base64Char ((q &&& 0x3f3f3f3f) >>> 24), base64Char ((q &&& 0x3f3f3f3f) >>> 16 &&& 0xff),
      base64Char ((q &&& 0x3f3f3f3f) >>> 8 &&& 0xff), base64Char ((q &&& 0x3f3f3f3f) &&& 0xff)] =
    encodeGroup a b c := by
  obtain ⟨h₁, h₂, h₃, h₄⟩ := quantum_digits ha hb hc hq
  have htop : (q &&& 0x3f3f3f3f) >>> 24 = q / 2 ^ 24 % 64 := by
    rw [Nat.shiftRight_and_distrib, Nat.shiftRight_eq_div_pow]
    exact Nat.and_two_pow_sub_one_eq_mod _ 6
  have hlow : (q &&& 0x3f3f3f3f) &&& 0xff = q % 64 := by
    rw [Nat.and_assoc]
    exact Nat.and_two_pow_sub_one_eq_mod _ 6
  rw [htop, masked_byte q rfl, masked_byte q rfl, hlow, encodeGroup, h₁, h₂, h₃, h₄]

theorem length_encodeGroup (a b c : Nat) : (encodeGroup a b c).length = 4 := rfl

theorem base64Quantum_eq (front tail : List UInt8) (a : UInt8) :
    base64Quantum (front ++ a :: tail) front.length =
      some ((a.toNat * 2 ^ 22 + a.toNat % 4 * 2 ^ 20 + (tail.getD 0 0).toNat / 16 * 2 ^ 16 +
        (tail.getD 0 0).toNat % 16 * 2 ^ 10 + (tail.getD 1 0).toNat / 64 * 2 ^ 8 +
        (tail.getD 1 0).toNat) &&& 0x3f3f3f3f) := by
  rw [← quantum_eq a.toNat_lt (tail.getD 0 0).toNat_lt (tail.getD 1 0).toNat_lt]
  have hnext : ∀ n, (front ++ a :: tail)[front.length + n]? = (a :: tail)[n]? := fun n => by
    rw [getElem?_append_right (Nat.le_add_right _ _), Nat.add_sub_cancel_left]
  have hfirst := hnext 0
  rw [Nat.add_zero] at hfirst
  rw [base64Quantum, hfirst, hnext 1, hnext 2]
  simp only [length_append, length_cons]
  rcases tail with _ | ⟨b, _ | ⟨c, rest⟩⟩
  · simp
  · simp
  · simp

theorem base64Loop_turn (front tail : List UInt8) (a : UInt8) (turns : Nat) {o : OutBlock}
    (h : o.bytes.length + 4 ≤ o.size) :
    base64Loop (front ++ a :: tail) (turns + 1) front.length o =
      base64Loop (front ++ a :: tail) turns (front.length + 3)
        (o.append (encodeGroup a.toNat (tail.getD 0 0).toNat (tail.getD 1 0).toNat)) := by
  have hlt : front.length < (front ++ a :: tail).length := by simp
  have hchars := quantum_chars a.toNat_lt (tail.getD 0 0).toNat_lt (tail.getD 1 0).toNat_lt rfl
  rw [← hchars, base64Loop, if_pos hlt, base64Quantum_eq]
  have h₂ : o.bytes.length + 1 < o.size := by omega
  have h₃ : o.bytes.length + 2 < o.size := by omega
  have h₄ : o.bytes.length + 3 < o.size := by omega
  simp [OutBlock.put, OutBlock.append, h₂, h₃, h₄, Nat.lt_of_succ_lt h₂]

theorem base64Loop_end {data : List UInt8} {i : Nat} (h : data.length ≤ i) (turns : Nat)
    (o : OutBlock) : base64Loop data turns i o = some (i, o) := by
  cases turns with
  | zero => rfl
  | succ turns => exact if_neg (Nat.not_lt.mpr h)

theorem length_encodeGroups (x : List UInt8) :
    (encodeGroups x).length = 4 * ((x.length + 2) / 3) := by
  fun_induction encodeGroups x with
  | case1 => rfl
  | case2 a => simp [length_encodeGroup]
  | case3 a b => simp [length_encodeGroup]
  | case4 a b c rest ih =>
    rw [length_append, length_encodeGroup, ih]
    simp only [length_cons]
    omega

theorem base64Loop_eq (turns : Nat) (front rest : List UInt8) (o : OutBlock)
    (hturns : rest.length ≤ turns) (hroom : o.bytes.length + (encodeGroups rest).length ≤ o.size) :
    base64Loop (front ++ rest) turns front.length o =
      some (front.length + 3 * ((rest.length + 2) / 3), o.append (encodeGroups rest)) := by
  induction turns generalizing front rest o with
  | zero =>
    obtain rfl := List.length_eq_zero_iff.mp (Nat.le_zero.mp hturns)
    simp [base64Loop, encodeGroups, OutBlock.append]
  | succ turns ih =>
    rw [length_encodeGroups] at hroom
    rcases rest with _ | ⟨a, _ | ⟨b, _ | ⟨c, rest⟩⟩⟩
    · simp [base64Loop, encodeGroups, OutBlock.append]
    · rw [base64Loop_turn front [] a turns (by simpa using hroom), base64Loop_end (by simp)]
      simp [encodeGroups]
    · rw [base64Loop_turn front [b] a turns (by simpa using hroom), base64Loop_end (by simp)]
      simp [encodeGroups]
    · have hfour : 4 * (((a :: b :: c :: rest).length + 2) / 3) =
          4 + 4 * ((rest.length + 2) / 3) := by
        simp only [length_cons]
        omega
      rw [hfour] at hroom
      rw [base64Loop_turn front (b :: c :: rest) a turns (by omega)]
      have hnext := ih (front ++ [a, b, c]) rest (o.append (encodeGroup a.toNat b.toNat c.toNat))
        (by simp only [length_cons] at hturns; omega)
        (by rw [length_encodeGroups]; simp [OutBlock.append, length_encodeGroup]; omega)
      rw [length_append, append_assoc] at hnext
      refine hnext.trans ?_
      simp [OutBlock.append, encodeGroups]
      omega

/-- The text of `base64_block`: the characters for missing bytes are paddings. -/
def encode : List UInt8 → List UInt8
  | [] => []
  | [a] => [base64Char (a.toNat / 4), base64Char (a.toNat % 4 * 16), padChar, padChar]
  | [a, b] =>
    [base64Char (a.toNat / 4), base64Char (a.toNat % 4 * 16 + b.toNat / 16),
      base64Char (b.toNat % 16 * 4), padChar]
  | a :: b :: c :: rest => encodeGroup a.toNat b.toNat c.toNat ++ encode rest

/-- The characters with as many paddings at the end. -/
def padded (missing : Nat) (e : List UInt8) : List UInt8 :=
  let e := if 0 < missing then e.set (e.length - 1) padChar else e
  if 1 < missing then e.set (e.length - 2) padChar else e

theorem padded_append (missing : Nat) (front : List UInt8) {e : List UInt8} (h : 4 ≤ e.length) :
    padded missing (front ++ e) = front ++ padded missing e := by
  have hset : ∀ (n : Nat) (e : List UInt8), n ≤ e.length →
      (front ++ e).set ((front ++ e).length - n) padChar =
        front ++ e.set (e.length - n) padChar := by
    intro n e hn
    have hplace : (front ++ e).length - n = front.length + (e.length - n) := by
      rw [length_append]
      omega
    rw [hplace, set_append_right _ _ (Nat.le_add_right _ _), Nat.add_sub_cancel_left]
  unfold padded
  by_cases hone : 0 < missing
  · rw [if_pos hone, if_pos hone, hset 1 e (by omega)]
    dsimp only
    split
    · rw [hset 2 _ (by rw [length_set]; omega)]
    · rfl
  · have htwo : ¬1 < missing := by omega
    rw [if_neg hone, if_neg hone]
    dsimp only
    rw [if_neg htwo, if_neg htwo]

theorem padded_encodeGroups (x : List UInt8) :
    padded (3 * ((x.length + 2) / 3) - x.length) (encodeGroups x) = encode x := by
  fun_induction encode x with
  | case1 => rfl
  | case2 a => simp [padded, encodeGroups, encodeGroup]
  | case3 a b => simp [padded, encodeGroups, encodeGroup]
  | case4 a b c rest ih =>
    have hmissing : 3 * (((a :: b :: c :: rest).length + 2) / 3) - (a :: b :: c :: rest).length =
        3 * ((rest.length + 2) / 3) - rest.length := by
      simp only [length_cons]
      omega
    rw [hmissing, encodeGroups]
    cases rest with
    | nil => rfl
    | cons d rest =>
      have hfour : 4 ≤ (encodeGroups (d :: rest)).length := by
        rw [length_encodeGroups]
        simp only [length_cons]
        omega
      rw [padded_append _ _ hfour, ih]

theorem length_encode (x : List UInt8) : (encode x).length = 4 * ((x.length + 2) / 3) := by
  rw [← padded_encodeGroups, ← length_encodeGroups]
  unfold padded
  dsimp only
  split <;> split <;> simp only [length_set]

theorem padIf_eq (size len i : Nat) {e : List UInt8} (h : len < i → 2 ≤ e.length) :
    (do let o ← (OutBlock.mk size e).padIf (len < i) 1; o.padIf (len + 1 < i) 2) =
      some ⟨size, padded (i - len) e⟩ := by
  unfold padded OutBlock.padIf
  by_cases hone : len < i
  · have hlength := h hone
    by_cases htwo : len + 1 < i
    · have hpos : 1 < i - len := by omega
      simp [hone, htwo, hpos, hlength, Nat.le_of_succ_le hlength]
    · have hnot : ¬1 < i - len := by omega
      simp [hone, htwo, hnot, Nat.le_of_succ_le hlength]
  · have hnone : i - len = 0 := by omega
    have htwo : ¬len + 1 < i := by omega
    simp [hone, htwo, hnone]

theorem base64Block_eq (x : List UInt8) :
    base64Block x = if 4 * ((x.length + 2) / 3) + 1 ≤ INT_MAX then some (encode x) else none := by
  have hsize : (x.length + 2 - (x.length + 2) % 3) / 3 * 4 + 1 = 4 * ((x.length + 2) / 3) + 1 := by
    omega
  unfold base64Block
  split
  · rename_i hfits
    have hlen : asInt x.length = some x.length := if_pos (by omega)
    have halloc : asInt ((x.length + 2 - (x.length + 2) % 3) / 3 * 4 + 1) =
        some (4 * ((x.length + 2) / 3) + 1) := by
      rw [hsize]
      exact if_pos hfits
    have hloop := base64Loop_eq x.length [] x { size := 4 * ((x.length + 2) / 3) + 1 }
      (Nat.le_refl _) (by rw [length_encodeGroups]; simp)
    rw [nil_append, length_nil, Nat.zero_add] at hloop
    have hpad := padIf_eq (4 * ((x.length + 2) / 3) + 1) x.length (3 * ((x.length + 2) / 3))
      (e := encodeGroups x) (by rw [length_encodeGroups]; omega)
    rw [padded_encodeGroups] at hpad
    rw [hlen, Option.bind_eq_bind, Option.bind_some, halloc, Option.bind_eq_bind, Option.bind_some,
      hloop, Option.bind_eq_bind, Option.bind_some]
    change (do
      let o ← (OutBlock.mk (4 * ((x.length + 2) / 3) + 1) (encodeGroups x)).padIf
        (x.length < 3 * ((x.length + 2) / 3)) 1
      let o ← o.padIf (x.length + 1 < 3 * ((x.length + 2) / 3)) 2
      o.finish) = some (encode x)
    rw [← bind_assoc, hpad, Option.bind_eq_bind, Option.bind_some, OutBlock.finish, if_pos]
    rw [length_encode]
    exact Nat.lt_succ_self _
  · rename_i hfits
    cases hlen : asInt x.length with
    | none => rfl
    | some len =>
      obtain rfl : x.length = len := by
        unfold asInt at hlen
        split at hlen
        · exact Option.some.inj hlen
        · cases hlen
      have halloc : asInt ((x.length + 2 - (x.length + 2) % 3) / 3 * 4 + 1) = none := by
        rw [hsize]
        exact if_neg hfits
      rw [Option.bind_eq_bind, Option.bind_some, halloc]
      rfl

/-! ### What the decoder writes -/

def decodeGroup (a b c d : UInt8) : List UInt8 :=
  let q := base64Digit d ||| base64Digit c <<< 6 ||| base64Digit b <<< 12 ||| base64Digit a <<< 18
  [UInt8.ofNat ((q >>> 16) &&& 0xff), UInt8.ofNat ((q >>> 8) &&& 0xff), UInt8.ofNat (q &&& 0xff)]

def decodeGroups : List UInt8 → List UInt8
  | a :: b :: c :: d :: rest => decodeGroup a b c d ++ decodeGroups rest
  | _ => []

theorem length_decodeGroup (a b c d : UInt8) : (decodeGroup a b c d).length = 3 := rfl

theorem length_decodeGroups (e : List UInt8) : (decodeGroups e).length = e.length / 4 * 3 := by
  fun_induction decodeGroups e with
  | case1 a b c d rest ih =>
    rw [length_append, length_decodeGroup, ih]
    simp only [length_cons]
    omega
  | case2 e hshort =>
    have hlt : e.length < 4 := by
      rcases e with _ | ⟨a, _ | ⟨b, _ | ⟨c, _ | ⟨d, rest⟩⟩⟩⟩
      · simp
      · simp
      · simp
      · simp
      · exact absurd rfl (hshort a b c d rest)
    rw [Nat.div_eq_of_lt hlt]
    rfl

theorem unbase64Loop_turn (front rest : List UInt8) (a b c d : UInt8) (turns : Nat) {o : OutBlock}
    (h : o.bytes.length + 3 ≤ o.size) :
    unbase64Loop (front ++ a :: b :: c :: d :: rest) (turns + 1) front.length o =
      unbase64Loop (front ++ a :: b :: c :: d :: rest) turns (front.length + 4)
        (o.append (decodeGroup a b c d)) := by
  have hnext : ∀ n, (front ++ a :: b :: c :: d :: rest)[front.length + n]? =
      (a :: b :: c :: d :: rest)[n]? := fun n => by
    rw [getElem?_append_right (Nat.le_add_right _ _), Nat.add_sub_cancel_left]
  have hfirst := hnext 0
  rw [Nat.add_zero] at hfirst
  have hlt : front.length + 3 < (front ++ a :: b :: c :: d :: rest).length := by simp
  have h₁ : o.bytes.length < o.size := by omega
  have h₂ : o.bytes.length + 1 < o.size := by omega
  have h₃ : o.bytes.length + 2 < o.size := by omega
  rw [unbase64Loop, if_pos hlt, unbase64Quantum, hfirst, hnext 1, hnext 2, hnext 3]
  simp [OutBlock.put, OutBlock.append, decodeGroup, h₁, h₂, h₃]

theorem unbase64Loop_eq (turns : Nat) (front rest : List UInt8) (o : OutBlock)
    (hturns : rest.length ≤ turns) (hwhole : 4 ∣ rest.length)
    (hroom : o.bytes.length + rest.length / 4 * 3 ≤ o.size) :
    unbase64Loop (front ++ rest) turns front.length o =
      some (front.length + rest.length, o.append (decodeGroups rest)) := by
  induction turns generalizing front rest o with
  | zero =>
    obtain rfl := List.length_eq_zero_iff.mp (Nat.le_zero.mp hturns)
    simp [unbase64Loop, decodeGroups, OutBlock.append]
  | succ turns ih =>
    rcases rest with _ | ⟨a, _ | ⟨b, _ | ⟨c, _ | ⟨d, rest⟩⟩⟩⟩
    · simp [unbase64Loop, decodeGroups, OutBlock.append]
    · simp at hwhole
    · simp at hwhole
    · simp at hwhole
    · simp only [length_cons] at hturns hwhole hroom
      rw [unbase64Loop_turn front rest a b c d turns (by omega)]
      have hnext := ih (front ++ [a, b, c, d]) rest (o.append (decodeGroup a b c d)) (by omega)
        (by omega) (by simp [OutBlock.append, length_decodeGroup]; omega)
      rw [length_append, append_assoc] at hnext
      refine hnext.trans ?_
      simp [OutBlock.append, decodeGroups]
      omega

theorem length_unpad_le (o : OutBlock) (c : UInt8) : (o.unpad c).bytes.length ≤ o.bytes.length := by
  unfold OutBlock.unpad
  split
  · rw [length_dropLast]
    exact Nat.sub_le _ _
  · exact Nat.le_refl _

theorem size_unpad (o : OutBlock) (c : UInt8) : (o.unpad c).size = o.size := by
  unfold OutBlock.unpad
  split
  · rfl
  · rfl

theorem unbase64Block_eq {front : List UInt8} {second last : UInt8}
    (hint : (front ++ [second, last]).length ≤ INT_MAX)
    (hwhole : 4 ∣ (front ++ [second, last]).length) :
    unbase64Block (front ++ [second, last]) = some
      (((OutBlock.mk ((front ++ [second, last]).length / 4 * 3 + 1)
        (decodeGroups (front ++ [second, last]))).unpad last).unpad second).bytes := by
  have hlast : readBack (front ++ [second, last]) (front ++ [second, last]).length 1 =
      some last := by
    simp [readBack]
  have hsecond : readBack (front ++ [second, last]) (front ++ [second, last]).length 2 =
      some second := by
    simp [readBack]
  generalize front ++ [second, last] = e at hint hwhole hlast hsecond
  have hlen : asInt e.length = some e.length := if_pos hint
  have halloc : asInt (e.length / 4 * 3 + 1) = some (e.length / 4 * 3 + 1) := by
    refine if_pos (le_trans ?_ hint)
    have hpos : e ≠ [] := by
      rintro rfl
      cases hlast
    have := length_pos_of_ne_nil hpos
    omega
  have hmod : ¬e.length % 4 ≠ 0 := fun h => h (Nat.mod_eq_zero_of_dvd hwhole)
  have hloop := unbase64Loop_eq e.length [] e { size := e.length / 4 * 3 + 1 } (Nat.le_refl _)
    hwhole (by simp)
  rw [nil_append, length_nil, Nat.zero_add] at hloop
  unfold unbase64Block
  rw [hlen, Option.bind_eq_bind, Option.bind_some, if_neg hmod, halloc]
  simp only [Option.bind_eq_bind, Option.bind_some, hloop, hlast, hsecond]
  refine if_pos ?_
  rw [size_unpad, size_unpad]
  have h₁ := length_unpad_le
    (OutBlock.append { size := e.length / 4 * 3 + 1 } (decodeGroups e)) last
  have h₂ := length_unpad_le
    ((OutBlock.append { size := e.length / 4 * 3 + 1 } (decodeGroups e)).unpad last) second
  have h₃ := length_decodeGroups e
  simp only [OutBlock.append, nil_append] at h₁ h₂ ⊢
  omega

theorem eq_append_pair {e : List UInt8} (h : 2 ≤ e.length) :
    ∃ front second last, e = front ++ [second, last] := by
  have hne : e ≠ [] := by
    rintro rfl
    cases h
  obtain ⟨init, last, rfl⟩ := (eq_nil_or_concat e).resolve_left hne
  have hinit : init ≠ [] := by
    rintro rfl
    simp at h
  obtain ⟨front, second, rfl⟩ := (eq_nil_or_concat init).resolve_left hinit
  exact ⟨front, second, last, by simp⟩

theorem unbase64Block_isSome_iff {e : List UInt8} (hint : e.length ≤ INT_MAX) :
    (unbase64Block e).isSome ↔ e ≠ [] := by
  constructor
  · rintro h rfl
    cases h
  · intro hne
    by_cases hwhole : 4 ∣ e.length
    · have htwo : 2 ≤ e.length := by
        have := length_pos_of_ne_nil hne
        omega
      obtain ⟨front, second, last, rfl⟩ := eq_append_pair htwo
      rw [unbase64Block_eq hint hwhole]
      rfl
    · have hlen : asInt e.length = some e.length := if_pos hint
      have hmod : e.length % 4 ≠ 0 := fun h => hwhole (Nat.dvd_of_mod_eq_zero h)
      rw [unbase64Block, hlen, Option.bind_eq_bind, Option.bind_some, if_pos hmod]
      rfl

/-! ### The round trip -/

theorem base64Digit_char :
    ∀ v : Fin 64, base64Digit (base64Char v) = v ∧ base64Char v ≠ padChar := by
  decide +kernel

theorem base64Digit_padChar : base64Digit padChar = 0 := by
  decide

theorem digits_eq {w x y z : Nat} (hx : x < 64) (hy : y < 64) (hz : z < 64) :
    z ||| y <<< 6 ||| x <<< 12 ||| w <<< 18 = w * 2 ^ 18 + (x * 2 ^ 12 + (y * 2 ^ 6 + z)) := by
  have h₁ : y * 2 ^ 6 + z < 2 ^ 12 := by omega
  have h₂ : x * 2 ^ 12 + (y * 2 ^ 6 + z) < 2 ^ 18 := by
    clear h₁
    omega
  rw [lor_eq_add (i := 6) hz, lor_eq_add h₁, lor_eq_add h₂]

theorem bytes_of_quantum {a b c : Nat} (hb : b < 256) (hc : c < 256) (ha : a < 256) :
    let q := a * 2 ^ 16 + b * 2 ^ 8 + c
    (q >>> 16) &&& 0xff = a ∧ (q >>> 8) &&& 0xff = b ∧ q &&& 0xff = c := by
  intro q
  have hmask : ∀ n, n &&& 0xff = n % 2 ^ 8 := fun n => Nat.and_two_pow_sub_one_eq_mod n 8
  rw [hmask, hmask, hmask, Nat.shiftRight_eq_div_pow, Nat.shiftRight_eq_div_pow]
  have h₁ : q / 2 ^ 16 = a := by omega
  have h₂ : q / 2 ^ 8 = a * 2 ^ 8 + b := by
    clear h₁
    omega
  rw [h₁, h₂]
  clear h₁ h₂
  refine ⟨?_, ?_, ?_⟩
  · omega
  · omega
  · omega

theorem decodeGroup_eq {w x y z : UInt8} (a b c : UInt8) (hw : base64Digit w = a.toNat / 4)
    (hx : base64Digit x = a.toNat % 4 * 16 + b.toNat / 16)
    (hy : base64Digit y = b.toNat % 16 * 4 + c.toNat / 64) (hz : base64Digit z = c.toNat % 64) :
    decodeGroup w x y z = [a, b, c] := by
  have ha := a.toNat_lt
  have hb := b.toNat_lt
  have hc := c.toNat_lt
  have hq : base64Digit z ||| base64Digit y <<< 6 ||| base64Digit x <<< 12 |||
      base64Digit w <<< 18 = a.toNat * 2 ^ 16 + b.toNat * 2 ^ 8 + c.toNat := by
    rw [digits_eq (by omega) (by omega) (by omega), hw, hx, hy, hz]
    clear hw hx hy hz
    omega
  obtain ⟨h₁, h₂, h₃⟩ := bytes_of_quantum hb hc ha
  rw [decodeGroup, hq, h₁, h₂, h₃, UInt8.ofNat_toNat, UInt8.ofNat_toNat, UInt8.ofNat_toNat]

theorem base64Digit_base64Char {v : Nat} (h : v < 64) : base64Digit (base64Char v) = v :=
  (base64Digit_char ⟨v, h⟩).1

theorem base64Char_ne_padChar {v : Nat} (h : v < 64) : base64Char v ≠ padChar :=
  (base64Digit_char ⟨v, h⟩).2

theorem decodeGroup_encodeGroup (a b c : UInt8) (rest : List UInt8) :
    decodeGroups (encodeGroup a.toNat b.toNat c.toNat ++ rest) =
      a :: b :: c :: decodeGroups rest := by
  have ha := a.toNat_lt
  have hb := b.toNat_lt
  have hc := c.toNat_lt
  have hgroup := decodeGroup_eq a b c (base64Digit_base64Char (by omega))
    (base64Digit_base64Char (by omega)) (base64Digit_base64Char (by omega))
    (base64Digit_base64Char (by omega))
  rw [encodeGroup, cons_append, cons_append, cons_append, cons_append,
    nil_append, decodeGroups, hgroup]
  rfl

theorem decodeGroups_encode {x : List UInt8} (hne : x ≠ []) :
    ∃ front second last zeros, encode x = front ++ [second, last] ∧
      decodeGroups (encode x) = x ++ zeros ∧
      (zeros = [] ∧ last ≠ padChar ∧ second ≠ padChar ∨
        zeros = [0] ∧ last = padChar ∧ second ≠ padChar ∨
        zeros = [0, 0] ∧ last = padChar ∧ second = padChar) := by
  fun_induction encode x with
  | case1 => exact absurd rfl hne
  | case2 a =>
    have ha := a.toNat_lt
    refine ⟨[base64Char (a.toNat / 4), base64Char (a.toNat % 4 * 16)], padChar, padChar, [0, 0],
      rfl, ?_, Or.inr (Or.inr ⟨rfl, rfl, rfl⟩)⟩
    have hsecond : base64Digit (base64Char (a.toNat % 4 * 16)) = a.toNat % 4 * 16 :=
      base64Digit_base64Char (by omega)
    have hgroup := decodeGroup_eq a 0 0 (base64Digit_base64Char (v := a.toNat / 4) (by omega))
      hsecond base64Digit_padChar base64Digit_padChar
    rw [decodeGroups, hgroup]
    rfl
  | case3 a b =>
    have ha := a.toNat_lt
    have hb := b.toNat_lt
    refine ⟨[base64Char (a.toNat / 4), base64Char (a.toNat % 4 * 16 + b.toNat / 16)],
      base64Char (b.toNat % 16 * 4), padChar, [0], rfl, ?_,
      Or.inr (Or.inl ⟨rfl, rfl, base64Char_ne_padChar (by omega)⟩)⟩
    have hthird : base64Digit (base64Char (b.toNat % 16 * 4)) = b.toNat % 16 * 4 :=
      base64Digit_base64Char (by omega)
    have hgroup := decodeGroup_eq a b 0 (base64Digit_base64Char (v := a.toNat / 4) (by omega))
      (base64Digit_base64Char (v := a.toNat % 4 * 16 + b.toNat / 16) (by omega)) hthird
      base64Digit_padChar
    rw [decodeGroups, hgroup]
    rfl
  | case4 a b c rest ih =>
    have hb := b.toNat_lt
    have hc := c.toNat_lt
    cases rest with
    | nil =>
      refine ⟨[base64Char (a.toNat / 4), base64Char (a.toNat % 4 * 16 + b.toNat / 16)],
        base64Char (b.toNat % 16 * 4 + c.toNat / 64), base64Char (c.toNat % 64), [], rfl, ?_,
        Or.inl ⟨rfl, base64Char_ne_padChar (by omega), base64Char_ne_padChar (by omega)⟩⟩
      rw [decodeGroup_encodeGroup]
      rfl
    | cons d rest =>
      obtain ⟨front, second, last, zeros, hencode, hdecode, hcases⟩ := ih (cons_ne_nil _ _)
      refine ⟨encodeGroup a.toNat b.toNat c.toNat ++ front, second, last, zeros, ?_, ?_, hcases⟩
      · rw [hencode, append_assoc]
      · rw [decodeGroup_encodeGroup, hdecode]
        rfl

theorem unbase64Block_encode {x : List UInt8} (hne : x ≠ []) (hint : (encode x).length ≤ INT_MAX) :
    unbase64Block (encode x) = some x := by
  obtain ⟨front, second, last, zeros, hencode, hdecode, hcases⟩ := decodeGroups_encode hne
  have hwhole : 4 ∣ (encode x).length := by
    rw [length_encode]
    exact Nat.dvd_mul_right _ _
  rw [hencode] at hint hwhole hdecode ⊢
  rw [unbase64Block_eq hint hwhole, hdecode]
  rcases hcases with ⟨rfl, hlast, hsecond⟩ | ⟨rfl, hlast, hsecond⟩ | ⟨rfl, hlast, hsecond⟩
  · simp [OutBlock.unpad, hlast, hsecond]
  · simp [OutBlock.unpad, hlast, hsecond]
  · have hzeros : x ++ [0, 0] = x ++ [0] ++ [0] := by simp
    rw [hzeros]
    simp only [OutBlock.unpad, hlast, hsecond, if_true, dropLast_concat]

/-- The two functions are inverse on a byte string, and the decoder stays within it. -/
def RoundTrips (x : List UInt8) : Prop :=
  (∃ e, base64Block x = some e ∧ e.length = 4 * ((x.length + 2) / 3) ∧
    unbase64Block e = some x) ∧ (unbase64Block x).isSome

/-- The decoder reads in front of an empty text. -/
theorem empty_not_round_trip : base64Block [] = some [] ∧ unbase64Block [] = none ∧
    ¬RoundTrips [] := by
  have hencoded : base64Block [] = some [] := by
    rw [base64Block_eq]
    rfl
  have hdecoded : unbase64Block [] = none := by
    simp [unbase64Block, asInt, readBack]
  refine ⟨hencoded, hdecoded, ?_⟩
  rintro ⟨-, h⟩
  rw [hdecoded] at h
  cases h

/-- The round trip works, and neither function leaves its input or its block, exactly for the
byte strings that are not empty and whose text fits an `int`. -/
theorem base64_round_trip_iff (x : List UInt8) :
    RoundTrips x ↔ x ≠ [] ∧ 4 * ((x.length + 2) / 3) + 1 ≤ INT_MAX := by
  constructor
  · rintro ⟨⟨e, he, -, -⟩, hsome⟩
    constructor
    · rintro rfl
      cases hsome
    · rw [base64Block_eq] at he
      by_contra hbig
      rw [if_neg hbig] at he
      cases he
  · rintro ⟨hne, hfits⟩
    have hint : (encode x).length ≤ INT_MAX := by
      rw [length_encode]
      omega
    refine ⟨⟨encode x, ?_, length_encode x, unbase64Block_encode hne hint⟩, ?_⟩
    · rw [base64Block_eq, if_pos hfits]
    · rw [unbase64Block_isSome_iff (by omega)]
      exact hne

end Ircd
