import Ircd.ClassCount

/-!
`mask_addr` of `hostmask.c`, on the memory from the first byte of the address on.

A store is recorded with its place, so that a store behind the address can be told.
The IPv4 branch is right wherever its shift is defined. The loop of the IPv6 branch
stores to the byte in which the prefix ends in every round, and never to the bytes
behind it: `mask_addr_iff` says for which addresses nothing is lost by that.
-/

namespace Ircd

open Bytes (clearLow value highBits)

/-- The memory from the first byte of an address on, and the places of the stores. -/
structure Memory where
  byte : Nat → Nat
  written : List Nat

def Memory.store (m : Memory) (i v : Nat) : Memory where
  byte := Function.update m.byte i (v % 256)
  written := m.written ++ [i]

/-- The first bytes of the memory as an address. -/
def Memory.read (size : Nat) (m : Memory) : Bytes.Block size :=
  Bytes.Block.ofList size ((List.range size).map m.byte)

/-- An address in memory, with what lies behind it. -/
def Memory.holding {size : Nat} (a : Bytes.Block size) (behind : Nat → Nat) : Memory where
  byte := fun i => if i < size then a.bytes.getD i 0 else behind i
  written := []

/-- The IPv4 branch of `mask_addr`: `none` where `1 << (32 - bits)` is undefined. -/
def maskInet (bits : Nat) (m : Memory) : Option Memory :=
  if bits = 0 ∨ 32 < bits then none
  else
    let addr := htonl (clearLow (32 - bits) (value (m.read 4).bytes))
    some (addr.zipIdx.foldl (fun m b => m.store b.2 b.1) m)

/-- The loop of the IPv6 branch, with the number of rounds that are left. -/
def maskLoop (n : Nat) : Nat → Memory → Memory
  | 0, m => m
  | left + 1, m => maskLoop n left (m.store n 0)

/-- The IPv6 branch of `mask_addr`: the loop runs from `n + 1` to 15. -/
def maskInet6 (bits : Nat) (m : Memory) : Memory :=
  let n := bits / 8
  maskLoop n (15 - n) (m.store n (clearLow (8 - bits % 8) (m.byte n)))

/-- `mask_addr`: the address it leaves, and the places it has written. -/
def maskAddr (bits : Nat) (behind : Nat → Nat) : QueryAddr → Option (QueryAddr × List Nat)
  | .inet a =>
    (maskInet bits (.holding a behind)).map fun m => (.inet (m.read 4), m.written)
  | .inet6 a =>
    let m := maskInet6 bits (.holding a behind)
    some (.inet6 (m.read 16), m.written)

/-! ### What the function is for -/

def QueryAddr.size : QueryAddr → Nat
  | .inet _ => 4
  | .inet6 _ => 16

/-- The network of an address: all bits beyond the prefix cleared. -/
def QueryAddr.network (bits : Nat) : QueryAddr → QueryAddr
  | .inet a => .inet (a.clearBeyond bits)
  | .inet6 a => .inet6 (a.clearBeyond bits)

/-- Two addresses of one family that agree on the first `bits` bits. -/
def QueryAddr.AgreeOn (bits : Nat) : QueryAddr → QueryAddr → Prop
  | .inet a, .inet b => highBits bits a.bytes = highBits bits b.bytes
  | .inet6 a, .inet6 b => highBits bits a.bytes = highBits bits b.bytes
  | _, _ => False

/-- `mask_addr` leaves the network of the address, and writes nothing behind it. -/
def MasksWell (bits : Nat) (behind : Nat → Nat) (ip : QueryAddr) : Prop :=
  ∃ written, maskAddr bits behind ip = some (ip.network bits, written) ∧
    ∀ i ∈ written, i < ip.size

/-- For IPv4 the prefix is not empty. For IPv6 it ends in the last byte, or it ends
before and the address has nothing but zeros from the byte on in which it ends, the
bits of that byte behind the prefix aside. -/
def Maskable (bits : Nat) : QueryAddr → Prop
  | .inet _ => 1 ≤ bits
  | .inet6 a =>
    bits < 128 ∧
      (120 ≤ bits ∨
        a.bytes.getD (bits / 8) 0 / 2 ^ (8 - bits % 8) = 0 ∧
          ∀ b ∈ a.bytes.drop (bits / 8 + 1), b = 0)

/-! ### The memory -/

variable {size bits : Nat} {behind : Nat → Nat}

theorem map_byte_holding (a : Bytes.Block size) :
    (List.range size).map (Memory.holding a behind).byte = a.bytes := by
  apply List.ext_getElem
  · simp [a.length_eq]
  · intro i hi hi'
    have hsize : i < size := by simpa using hi
    simp [Memory.holding, hsize, a.length_eq]

theorem read_holding (a : Bytes.Block size) : (Memory.holding a behind).read size = a := by
  rw [Memory.read, map_byte_holding, Bytes.Block.ofList_bytes]

theorem map_byte_store (m : Memory) (i v : Nat) :
    (List.range size).map (m.store i v).byte = ((List.range size).map m.byte).set i (v % 256) := by
  apply List.ext_getElem
  · simp
  · intro j hj hj'
    by_cases hij : i = j
    · subst hij
      simp [Memory.store]
    · rw [List.getElem_set_ne hij]
      simp [Memory.store, Function.update_of_ne (Ne.symm hij)]

/-! ### IPv4 -/

variable (behind) in
theorem maskInet_eq (hpos : 1 ≤ bits) (hle : bits ≤ 32) (a : InAddr) :
    ∃ m, maskInet bits (.holding a behind) = some m ∧ m.read 4 = a.clearBeyond bits ∧
      m.written = [0, 1, 2, 3] := by
  rw [maskInet, if_neg (by omega), read_holding]
  refine ⟨_, rfl, ?_, rfl⟩
  have hvalue : value (a.clearBeyond bits).bytes = clearLow (32 - bits) (value a.bytes) := by
    have h := Bytes.value_clearBeyond (n := bits) a.wf (by rw [a.length_eq]; omega)
    rw [a.length_eq] at h
    exact h
  have hlt : clearLow (32 - bits) (value a.bytes) < 2 ^ 32 := by
    have h := Bytes.value_lt a.wf
    rw [a.length_eq] at h
    exact Nat.lt_of_le_of_lt (Bytes.clearLow_le _ _) h
  generalize clearLow (32 - bits) (value a.bytes) = v at hvalue hlt
  have hread : (((htonl v).zipIdx.foldl (fun m b => m.store b.2 b.1)
      (Memory.holding a behind)).read 4) = Bytes.Block.ofList 4 (htonl v) := by
    apply Bytes.Block.eq_of_bytes
    simp [Memory.read, Bytes.Block.ofList, htonl, List.range_succ, Memory.store, Function.update]
  apply Bytes.Block.eq_of_bytes
  rw [hread]
  apply Bytes.value_inj (Bytes.Block.wf _) (Bytes.Block.wf _)
  · rw [Bytes.Block.length_eq, Bytes.Block.length_eq]
  · rw [value_ofList_htonl hlt, hvalue]

/-! ### IPv6 -/

theorem written_maskLoop (n left : Nat) (m : Memory) :
    (maskLoop n left m).written = m.written ++ List.replicate left n := by
  induction left generalizing m with
  | zero => simp [maskLoop]
  | succ left ih => simp [maskLoop, ih, Memory.store, List.replicate_succ]

theorem map_byte_maskLoop (n left : Nat) (m : Memory) :
    (List.range size).map (maskLoop n left m).byte =
      if left = 0 then (List.range size).map m.byte else ((List.range size).map m.byte).set n
        0 := by
  induction left generalizing m with
  | zero => simp [maskLoop]
  | succ left ih =>
    rw [maskLoop, ih, map_byte_store]
    by_cases hleft : left = 0
    · simp [hleft]
    · simp [hleft, List.set_set]

theorem written_maskInet6 (m : Memory) :
    (maskInet6 bits m).written = m.written ++ bits / 8 :: List.replicate (15 - bits / 8)
      (bits / 8) := by
  rw [maskInet6, written_maskLoop]
  simp [Memory.store]

theorem read_maskInet6 (a : In6Addr) :
    (maskInet6 bits (.holding a behind)).read 16 = maskAddr6 bits a := by
  have hbyte : bits / 8 < 16 → (Memory.holding a behind).byte (bits / 8) = a.bytes.getD (bits / 8)
      0 :=
    fun hn => if_pos hn
  rw [Memory.read, maskInet6, map_byte_maskLoop, map_byte_store, map_byte_holding, maskAddr6]
  by_cases hn : bits / 8 < 15
  · rw [if_neg (by omega), if_pos hn, List.set_set]
  · rw [if_pos (by omega), if_neg hn]
    by_cases h16 : bits / 8 < 16
    · have hlt : clearLow (8 - bits % 8) (a.bytes.getD (bits / 8) 0) < 256 :=
        Nat.lt_of_le_of_lt (Bytes.clearLow_le _ _) (a.getD_lt _)
      rw [hbyte h16, Nat.mod_eq_of_lt hlt]
    · have hlen : a.bytes.length ≤ bits / 8 := by
        rw [a.length_eq]
        omega
      rw [List.set_eq_of_length_le hlen, List.set_eq_of_length_le hlen]

theorem maskAddr6_eq_network_iff (hlt : bits < 128) (a : In6Addr) :
    maskAddr6 bits a = a.clearBeyond bits ↔ Maskable bits (.inet6 a) := by
  have hn : bits / 8 < a.bytes.length := by
    rw [a.length_eq]
    omega
  set last := if bits / 8 < 15 then 0 else clearLow (8 - bits % 8) (a.bytes.getD (bits / 8) 0)
    with hlast
  have hwf : ∀ b ∈ a.bytes.set (bits / 8) last, b < 256 := by
    intro b hb
    rcases List.mem_or_eq_of_mem_set hb with hmem | rfl
    · exact a.wf b hmem
    · rw [hlast]
      split
      · norm_num
      · exact Nat.lt_of_le_of_lt (Bytes.clearLow_le _ _) (a.getD_lt _)
  have hbytes : (maskAddr6 bits a).bytes = a.bytes.set (bits / 8) last :=
    Bytes.Block.bytes_ofList (by rw [List.length_set, a.length_eq]) hwf
  have hiff : maskAddr6 bits a = a.clearBeyond bits ↔
      last = clearLow (8 - bits % 8) (a.bytes.getD (bits / 8) 0) ∧
        a.bytes.drop (bits / 8 + 1) = (a.bytes.drop (bits / 8 + 1)).map fun _ => 0 := by
    rw [show maskAddr6 bits a = a.clearBeyond bits ↔ (maskAddr6 bits a).bytes =
      (a.clearBeyond bits).bytes from ⟨fun h => congrArg _ h, Bytes.Block.eq_of_bytes⟩, hbytes]
    rw [show (a.clearBeyond bits).bytes = Bytes.clearBeyond bits a.bytes from rfl,
      Bytes.clearBeyond_eq (by rw [a.length_eq]; omega), List.set_eq_take_append_cons_drop,
      if_pos hn, List.append_cancel_left_eq, List.cons.injEq]
  have hzeros : a.bytes.drop (bits / 8 + 1) = (a.bytes.drop (bits / 8 + 1)).map (fun _ => 0) ↔
      ∀ b ∈ a.bytes.drop (bits / 8 + 1), b = 0 := by
    constructor
    · intro h b hb
      rw [h] at hb
      obtain ⟨c, -, rfl⟩ := List.mem_map.mp hb
      rfl
    · intro h
      calc a.bytes.drop (bits / 8 + 1) = (a.bytes.drop (bits / 8 + 1)).map id := by simp
        _ = (a.bytes.drop (bits / 8 + 1)).map fun _ => 0 := List.map_congr_left h
  rw [hiff, hzeros, Maskable, and_iff_right hlt]
  by_cases hn15 : bits / 8 < 15
  · have hnot : ¬ 120 ≤ bits := by omega
    rw [hlast, if_pos hn15, eq_comm, Bytes.clearLow_eq_iff, Nat.zero_div, Nat.zero_mod,
      and_iff_left rfl, or_iff_right hnot]
  · have hlong : 120 ≤ bits := by omega
    have hdrop : a.bytes.drop (bits / 8 + 1) = [] := by
      apply List.drop_eq_nil_of_le
      rw [a.length_eq]
      omega
    rw [hlast, if_neg hn15, hdrop]
    simp [hlong]

/-! ### Exactly when the function is right -/

variable (behind) in
theorem masksWell_iff {ip : QueryAddr} (hle : bits ≤ 8 * ip.size) :
    MasksWell bits behind ip ↔ Maskable bits ip := by
  cases ip with
  | inet a =>
    rw [Maskable]
    constructor
    · rintro ⟨written, hmask, -⟩
      by_contra hzero
      rw [maskAddr, maskInet, if_pos (by omega)] at hmask
      cases hmask
    · intro hpos
      obtain ⟨m, hmask, hread, hwritten⟩ := maskInet_eq behind hpos hle a
      refine ⟨m.written, by rw [maskAddr, hmask, Option.map_some, hread]; rfl, ?_⟩
      rw [hwritten]
      simp [QueryAddr.size]
  | inet6 a =>
    have hinside :
        (∀ i ∈ (maskInet6 bits (.holding a behind)).written, i < 16) ↔ bits < 128 := by
      rw [written_maskInet6]
      constructor
      · intro h
        have hfirst := h (bits / 8) (by simp)
        omega
      · intro hlt i hi
        have hi : i = bits / 8 := by
          simp only [Memory.holding, List.nil_append, List.mem_cons, List.mem_replicate] at hi
          exact hi.elim id And.right
        omega
    have hiff : MasksWell bits behind (.inet6 a) ↔
        maskAddr6 bits a = a.clearBeyond bits ∧ bits < 128 := by
      simp only [MasksWell, maskAddr, read_maskInet6, QueryAddr.network, QueryAddr.size,
        Option.some.injEq, Prod.mk.injEq, QueryAddr.inet6.injEq]
      constructor
      · rintro ⟨written, ⟨hnet, rfl⟩, hwritten⟩
        exact ⟨hnet, hinside.mp hwritten⟩
      · rintro ⟨hnet, hlt⟩
        exact ⟨_, ⟨hnet, rfl⟩, hinside.mpr hlt⟩
    rw [hiff]
    constructor
    · rintro ⟨hnet, hlt⟩
      exact (maskAddr6_eq_network_iff hlt a).mp hnet
    · intro h
      exact ⟨(maskAddr6_eq_network_iff h.1 a).mpr h, h.1⟩

theorem network_eq_iff {a b : QueryAddr} (ha : bits ≤ 8 * a.size) :
    a.network bits = b.network bits ↔ a.AgreeOn bits b := by
  have hblock : ∀ {size : Nat} (a b : Bytes.Block size), bits ≤ 8 * size →
      (a.clearBeyond bits = b.clearBeyond bits ↔ highBits bits a.bytes = highBits bits
        b.bytes) := by
    intro size a b hle
    rw [← Bytes.clearBeyond_inj_iff a.wf b.wf (by rw [a.length_eq, b.length_eq])
      (by rw [a.length_eq]; exact hle)]
    exact ⟨fun h => congrArg Bytes.Block.bytes h, fun h => Bytes.Block.eq_of_bytes h⟩
  cases a with
  | inet a =>
    cases b with
    | inet b => simp [QueryAddr.network, QueryAddr.AgreeOn, hblock a b ha]
    | inet6 b => simp [QueryAddr.network, QueryAddr.AgreeOn]
  | inet6 a =>
    cases b with
    | inet b => simp [QueryAddr.network, QueryAddr.AgreeOn]
    | inet6 b => simp [QueryAddr.network, QueryAddr.AgreeOn, hblock a b ha]

/-- Two clients of one `/64` whose hosts are told apart by the last byte. -/
def hostOne : In6Addr := Bytes.Block.ofList 16 [254, 128, 0, 0, 0, 0, 0, 0, 0, 0, 0, 0, 0, 0, 0, 1]

def hostTwo : In6Addr := Bytes.Block.ofList 16 [254, 128, 0, 0, 0, 0, 0, 0, 0, 0, 0, 0, 0, 0, 0, 2]

end Ircd
