import Ircd.Match
import Ircd.Address
import Ircd.Lib.Bytes
import Mathlib.Data.List.Basic

/-!
Host masks: the parser that tells IPv4 masks, IPv6 masks and host names apart,
the matching of addresses, and the hashes of `hostmask.c`.
-/

namespace Ircd

open Bytes (clearLow value highBits)

/-- `struct in_addr`. -/
abbrev InAddr := Bytes.Block 4

/-- `struct in6_addr`. -/
abbrev In6Addr := Bytes.Block 16

/-- The result of `parse_netmask`: `HM_HOST`, or an address and its prefix
length. -/
inductive NetMask where
  | host
  | ipv4 (addr : InAddr) (bits : Int)
  | ipv6 (addr : In6Addr) (bits : Nat)

/-! ### IPv4 masks -/

/-- The loop of `try_parse_v4_netmask`: the starts of the numbers and the prefix
length, `none` for a host mask. `prev` is the character before `p`. -/
def v4Loop : List CStr → Option Char → CStr → Option (List CStr × Int)
  | digits, _, [] => some (digits, 0)
  | digits, prev, c :: p =>
    if isDigit c then v4Loop digits (some c) p
    else if c = '.' then
      if 4 ≤ digits.length then none else v4Loop (digits ++ [p]) (some c) p
    else if c = '*' then
      if p ≠ [] ∨ prev ≠ some '.' then none else some (digits, ((digits.length - 1) * 8 : Nat))
    else if c = '/' then
      let (v, after) := strtoul p
      let bits := toInt32 v
      if bits = 0 ∨ after ≠ [] then none
      else if bits > (digits.length * 8 : Nat) then none
      else some (digits, bits)
    else none

/-- `try_parse_v4_netmask`. With a negative prefix length the source indexes
outside `addb`; the model clears all of it. -/
def tryParseV4Netmask (text : CStr) : NetMask :=
  match v4Loop [text] none text with
  | none => .host
  | some (digits, bits) =>
    let bits : Int := if digits.length < 4 ∧ bits = 0 then (digits.length * 8 : Nat) else bits
    let addb : InAddr := Bytes.Block.ofList 4 (digits.map fun d => (strtoul d).1)
    let bits : Int := if bits = 0 then 32 else bits
    .ipv4 (addb.clearBeyond bits.toNat) bits

/-! ### IPv6 masks -/

/-- The variables of `try_parse_v6_netmask`. -/
structure V6Parse where
  d : List Nat
  dp : Nat
  nyble : Nat
  finsert : Option Nat
  deriving DecidableEq, Repr

/-- `d[dp] = d[dp] >> 4 * nyble`. -/
def V6Parse.shift (st : V6Parse) : V6Parse :=
  { st with d := st.d.modify st.dp fun w => w >>> (4 * st.nyble) }

/-- The loop of `try_parse_v6_netmask`: the variables, the prefix length, and
whether the end of the text was reached. -/
def v6Loop : V6Parse → Nat → Option Char → CStr → Option (V6Parse × Nat × Bool)
  | st, bits, _, [] => some (st, bits, true)
  | st, bits, prev, c :: p =>
    match hexVal c with
    | some v =>
      if st.nyble = 0 then none
      else
        v6Loop
          { st with
            d := st.d.modify st.dp fun w => w ||| v <<< (4 * (st.nyble - 1))
            nyble := st.nyble - 1 }
          bits (some c) p
    | none =>
      if c = ':' then
        if prev = some ':' then
          match st.finsert with
          | some _ => none
          | none => v6Loop { st with finsert := some st.dp } bits (some c) p
        else if 8 ≤ st.dp + 1 then none
        else v6Loop { st.shift with nyble := 4, dp := st.dp + 1 } bits (some c) p
      else if c = '*' then
        if st.finsert.isSome ∨ p ≠ [] ∨ st.dp = 0 ∨ prev ≠ some ':' then none
        else v6Loop st (st.dp * 16) (some c) p
      else if c = '/' then
        let st := { st.shift with dp := st.dp + 1 }
        let (v, after) := strtoul p
        let bits := toInt32 v
        if bits < 0 ∨ after ≠ [] then none
        else if bits > (st.dp * 4 : Nat) ∧ ¬ (st.finsert.isSome ∧ bits ≤ 128) then none
        else some (st, bits.toNat, false)
      else none

/-- Filling in the gap from `::` in the copied table. -/
def v6Fill (d : List Nat) (finsert : Option Nat) : Nat → Nat → Int → List Nat
  | 0, _, _ => []
  | room + 1, nyble, deficit =>
    if finsert = some nyble ∧ deficit ≠ 0 then 0 :: v6Fill d finsert room nyble (deficit - 1)
    else d.getD nyble 0 % 2 ^ 16 :: v6Fill d finsert room (nyble + 1) deficit

/-- Setting the unused bits to 0. The word in which the prefix ends keeps one bit
more than its part of the prefix: the source shifts by `15 - bits % 16`. -/
def v6Clear (bits : Nat) (dc : List Nat) : List Nat :=
  dc.mapIdx fun i w =>
    if i < bits / 16 then w
    else if i = bits / 16 ∧ bits % 16 ≠ 0 then clearLow (15 - bits % 16) w
    else 0

/-- `try_parse_v6_netmask`. -/
def tryParseV6Netmask (text : CStr) : NetMask :=
  match v6Loop ⟨List.replicate 8 0, 0, 4, none⟩ 128 none text with
  | none => .host
  | some (st, bits, atEnd) =>
    let st := st.shift
    let dp := if atEnd then st.dp + 1 else st.dp
    let bits := if st.finsert = none ∧ bits = 0 then dp * 16 else bits
    let deficit : Int := (bits / 16 + if bits % 16 = 0 then 0 else 1 : Nat) - dp
    let dc := v6Clear bits (v6Fill st.d st.finsert 8 0 deficit)
    .ipv6 (Bytes.Block.ofList 16 (dc.flatMap fun w => [w / 256, w % 256])) bits

/-- `parse_netmask`. -/
def parseNetmask (text : CStr) : NetMask :=
  if ':' ∈ text then tryParseV6Netmask text
  else if '.' ∈ text then tryParseV4Netmask text
  else .host

/-! ### Matching and hashing addresses -/

/-- `match_ipv6`. -/
def matchIpv6 (addr mask : In6Addr) (bits : Nat) : Bool :=
  if addr.bytes.take (bits / 8) ≠ mask.bytes.take (bits / 8) then false
  else if bits % 8 = 0 then true
  else
    decide (clearLow (8 - bits % 8) (addr.bytes.getD (bits / 8) 0) = mask.bytes.getD (bits / 8) 0)

/-- `match_ipv4`. The shift by `32 - bits` is undefined in the source for a
prefix length that is not in 1..32; the model then matches nothing. -/
def matchIpv4 (addr mask : InAddr) (bits : Int) : Bool :=
  if 1 ≤ bits ∧ bits ≤ 32 then
    decide (clearLow (32 - bits.toNat) (value addr.bytes) = value mask.bytes)
  else false

/-- `ATABLE_SIZE - 1` as a bit mask. -/
def atableMask : Nat := 0xfff

/-- `hash_ipv4`. -/
def hashIpv4 (addr : InAddr) (bits : Int) : Nat :=
  if bits ≠ 0 then
    let av := clearLow (32 - bits).toNat (value addr.bytes)
    (av ^^^ (av >>> 12) ^^^ (av >>> 24)) &&& atableMask
  else 0

/-- The loop of `hash_ipv6`. -/
def hashIpv6Loop : Nat → Nat → List Nat → Nat
  | _, v, [] => v &&& atableMask
  | bits, v, b :: bs =>
    if 8 ≤ bits then hashIpv6Loop (bits - 8) (v ^^^ b) bs
    else if bits ≠ 0 then (v ^^^ clearLow (8 - bits) b) &&& atableMask
    else v &&& atableMask

/-- `hash_ipv6`. -/
def hashIpv6 (addr : In6Addr) (bits : Nat) : Nat := hashIpv6Loop bits 0 addr.bytes

/-! ### Hashing host names -/

/-- One round of the loop of `hash_text`. -/
def hashTextStep (h : BitVec 64) (c : Char) : BitVec 64 :=
  (h <<< 4) - (h + BitVec.ofNat 64 (toLower c).toNat)

/-- `hash_text`. -/
def hashText (start : CStr) : Nat := (start.foldl hashTextStep 0).toNat &&& atableMask

/-- The loop of `get_mask_hash` from the end of the text: `hp`, the text behind the
current place, and the characters before it, the last first. -/
def maskHashLoop (hp after : CStr) : List Char → Nat
  | [] => hashText after
  | c :: before =>
    if c = '*' ∨ c = '?' then hashText hp
    else maskHashLoop (if c = '.' then after else hp) (c :: after) before

/-- `get_mask_hash`. -/
def getMaskHash (text : CStr) : Nat := maskHashLoop [] [] text.reverse

/-! ### What the parser returns -/

/-- What the parser promises of a mask: the prefix length is within the address,
and an IPv4 mask has no bits behind its prefix. -/
def NetMask.Wf : NetMask → Prop
  | .host => True
  | .ipv4 addr bits => bits ≠ 0 ∧ bits ≤ 32 ∧ value addr.bytes % 2 ^ (32 - bits.toNat) = 0
  | .ipv6 _ bits => bits ≤ 128

theorem v4Loop_spec {digits digits' : List CStr} {prev : Option Char} {text : CStr} {bits : Int}
    (h : v4Loop digits prev text = some (digits', bits)) (hpos : 1 ≤ digits.length)
    (hle : digits.length ≤ 4) :
    1 ≤ digits'.length ∧ digits'.length ≤ 4 ∧ bits ≤ (digits'.length * 8 : Nat) := by
  induction text generalizing digits prev with
  | nil =>
    simp only [v4Loop, Option.some.injEq, Prod.mk.injEq] at h
    obtain ⟨rfl, rfl⟩ := h
    exact ⟨hpos, hle, by omega⟩
  | cons c p ih =>
    unfold v4Loop at h
    split_ifs at h with hd hdot hfull hstar hbad hslash
    · exact ih h hpos hle
    · exact ih h (by simp) (by simp; omega)
    · simp only [Option.some.injEq, Prod.mk.injEq] at h
      obtain ⟨rfl, rfl⟩ := h
      exact ⟨hpos, hle, by omega⟩
    · simp only at h
      split_ifs at h with h0 hbig
      simp only [Option.some.injEq, Prod.mk.injEq] at h
      obtain ⟨rfl, rfl⟩ := h
      exact ⟨hpos, hle, by omega⟩

theorem tryParseV4Netmask_wf (text : CStr) : (tryParseV4Netmask text).Wf := by
  unfold tryParseV4Netmask
  split
  · trivial
  · rename_i digits bits hloop
    obtain ⟨hpos, hle, hbits⟩ := v4Loop_spec hloop (by simp) (by simp)
    simp only [NetMask.Wf]
    refine ⟨by split_ifs <;> omega, by split_ifs <;> omega, ?_⟩
    have hlen := Bytes.value_clearBeyond_mod (if (if digits.length < 4 ∧ bits = 0 then
      ((digits.length * 8 : Nat) : Int) else bits) = 0 then (32 : Int) else
      if digits.length < 4 ∧ bits = 0 then ((digits.length * 8 : Nat) : Int) else bits).toNat
      (Bytes.Block.ofList 4 (digits.map fun d => (strtoul d).1)).bytes
    rwa [(Bytes.Block.ofList 4 (digits.map fun d => (strtoul d).1)).length_eq] at hlen

theorem v6Loop_spec {st st' : V6Parse} {bits bits' : Nat} {prev : Option Char} {text : CStr}
    {atEnd : Bool} (h : v6Loop st bits prev text = some (st', bits', atEnd)) (hdp : st.dp ≤ 7)
    (hbits : bits ≤ 128) :
    bits' ≤ 128 ∧ (if atEnd then st'.dp + 1 else st'.dp) ≤ 8 := by
  induction text generalizing st bits prev with
  | nil =>
    simp only [v6Loop, Option.some.injEq, Prod.mk.injEq] at h
    obtain ⟨rfl, rfl, rfl⟩ := h
    exact ⟨hbits, by simp; omega⟩
  | cons c p ih =>
    unfold v6Loop at h
    split at h
    · split at h
      · simp at h
      · exact ih h hdp hbits
    · split at h
      · split at h
        · split at h
          · simp at h
          · exact ih h hdp hbits
        · split at h
          · simp at h
          · exact ih h (by simp; omega) hbits
      · split at h
        · split at h
          · simp at h
          · exact ih h hdp (by omega)
        · split at h
          · simp only at h
            split_ifs at h with h1 h2
            simp only [Option.some.injEq, Prod.mk.injEq] at h
            obtain ⟨rfl, rfl, rfl⟩ := h
            simp only at h2 ⊢
            refine ⟨?_, by simp; omega⟩
            by_contra hbig
            exact h2 ⟨by omega, fun h => by omega⟩
          · simp at h

theorem tryParseV6Netmask_wf (text : CStr) : (tryParseV6Netmask text).Wf := by
  unfold tryParseV6Netmask
  split
  · trivial
  · rename_i st bits atEnd hloop
    obtain ⟨hbits, hdp⟩ := v6Loop_spec hloop (by simp) (le_refl _)
    have hshift : st.shift.dp = st.dp := rfl
    simp only [NetMask.Wf, hshift]
    split_ifs <;> simp_all <;> omega

theorem parseNetmask_wf (text : CStr) : (parseNetmask text).Wf := by
  unfold parseNetmask
  split
  · exact tryParseV6Netmask_wf text
  · split
    · exact tryParseV4Netmask_wf text
    · trivial

/-! ### Matching is agreement on the prefix -/

/-- The byte in which an IPv6 prefix ends holds no bit of the mask behind the
prefix. -/
def Tidy (mask : In6Addr) (bits : Nat) : Prop :=
  bits % 8 ≠ 0 → mask.bytes.getD (bits / 8) 0 % 2 ^ (8 - bits % 8) = 0

instance (mask : In6Addr) (bits : Nat) : Decidable (Tidy mask bits) :=
  inferInstanceAs (Decidable (_ → _))

theorem matchIpv4_iff {addr mask : InAddr} {bits : Int} (hle : bits ≤ 32)
    (hmask : value mask.bytes % 2 ^ (32 - bits.toNat) = 0) :
    matchIpv4 addr mask bits = true ↔
      1 ≤ bits ∧ highBits bits.toNat addr.bytes = highBits bits.toNat mask.bytes := by
  unfold matchIpv4
  by_cases hpos : 1 ≤ bits
  · simp only [hpos, hle, and_self, if_true, true_and, decide_eq_true_eq]
    rw [Bytes.clearLow_eq_iff, and_iff_left hmask]
    simp only [highBits, addr.length_eq, mask.length_eq]
  · simp [hpos]

theorem matchIpv6_iff {addr mask : In6Addr} {bits : Nat} (hle : bits ≤ 128) :
    matchIpv6 addr mask bits = true ↔
      highBits bits addr.bytes = highBits bits mask.bytes ∧ Tidy mask bits := by
  rw [Bytes.prefix_iff addr.wf mask.wf (by rw [addr.length_eq, mask.length_eq])
    (by rw [addr.length_eq]; omega)]
  have hzero : bits % 8 = 0 → (addr.bytes.getD (bits / 8) 0) / 2 ^ (8 - bits % 8) =
      (mask.bytes.getD (bits / 8) 0) / 2 ^ (8 - bits % 8) := by
    have hbyte : ∀ a : In6Addr, a.bytes.getD (bits / 8) 0 < 256 := fun a => a.getD_lt _
    intro h0
    rw [h0, Nat.div_eq_of_lt (by simpa using hbyte addr),
      Nat.div_eq_of_lt (by simpa using hbyte mask)]
  unfold matchIpv6 Tidy
  by_cases htake : addr.bytes.take (bits / 8) = mask.bytes.take (bits / 8)
  · by_cases h0 : bits % 8 = 0
    · simp only [htake, h0, ne_eq, not_true_eq_false, if_true, if_false, true_and]
      simpa [h0] using hzero h0
    · simp only [htake, h0, ne_eq, not_true_eq_false, not_false_eq_true, if_false, true_and,
        decide_eq_true_eq, forall_const]
      exact Bytes.clearLow_eq_iff
  · simp [htake]

/-! ### Addresses that agree share their buckets -/

theorem hashIpv4_congr {addr mask : InAddr} {b bits : Nat} (hb : b ≤ bits) (hle : bits ≤ 32)
    (h : highBits bits addr.bytes = highBits bits mask.bytes) :
    hashIpv4 addr b = hashIpv4 mask b := by
  have hclear : ∀ a : InAddr, clearLow (32 - (b : Int)).toNat (value a.bytes) =
      highBits bits a.bytes / 2 ^ (bits - b) * 2 ^ (32 - b) := by
    intro a
    have hexp : (32 - (b : Int)).toNat = 32 - b := by omega
    have hsplit : 32 - b = (32 - bits) + (bits - b) := by omega
    simp only [clearLow, highBits, a.length_eq, hexp]
    rw [Nat.div_div_eq_div_mul, ← Nat.pow_add, ← hsplit]
  simp only [hashIpv4, hclear, h]

theorem hashIpv6Loop_congr {k v : Nat} {bs bs' : List Nat} (hlen : bs.length = bs'.length)
    (h : bs.take k = bs'.take k) : hashIpv6Loop (8 * k) v bs = hashIpv6Loop (8 * k) v bs' := by
  induction k generalizing v bs bs' with
  | zero =>
    cases bs with
    | nil => rw [List.length_eq_zero_iff.mp hlen.symm]
    | cons b bs =>
      cases bs' with
      | nil => simp at hlen
      | cons b' bs' => simp [hashIpv6Loop]
  | succ k ih =>
    cases bs with
    | nil => rw [List.length_eq_zero_iff.mp hlen.symm]
    | cons b bs =>
      cases bs' with
      | nil => simp at hlen
      | cons b' bs' =>
        simp only [List.take_succ_cons, List.cons.injEq] at h
        obtain ⟨rfl, h⟩ := h
        have h8 : 8 ≤ 8 * (k + 1) := by omega
        have hsub : 8 * (k + 1) - 8 = 8 * k := by omega
        simp only [hashIpv6Loop, h8, if_true, hsub]
        exact ih (by simpa using hlen) h

theorem hashIpv6_congr {addr mask : In6Addr} {k bits : Nat} (hk : 8 * k ≤ bits) (hle : bits ≤ 128)
    (h : highBits bits addr.bytes = highBits bits mask.bytes) :
    hashIpv6 addr (8 * k) = hashIpv6 mask (8 * k) := by
  have hlen : addr.bytes.length = mask.bytes.length := by rw [addr.length_eq, mask.length_eq]
  rw [Bytes.prefix_iff addr.wf mask.wf hlen (by rw [addr.length_eq]; omega)] at h
  refine hashIpv6Loop_congr hlen ?_
  have hmin : k = min k (bits / 8) := by omega
  rw [hmin, ← List.take_take, ← List.take_take, h.1]

/-! ### Names that match share a bucket -/

/-- The texts behind each `.` of a name, from the left. -/
def dotSuffixes : CStr → List CStr
  | [] => []
  | c :: p => if c = '.' then p :: dotSuffixes p else dotSuffixes p

/-- The hashes that a lookup of a name visits: the name, every text behind a `.`,
and bucket 0. -/
def nameHashes (name : CStr) : List Nat := (name :: dotSuffixes name).map hashText ++ [0]

/-- What follows the first `.`, or nothing. -/
def afterFirstDot (s : CStr) : CStr :=
  match strchr '.' s with
  | some (_, t) => t
  | none => []

end Ircd
