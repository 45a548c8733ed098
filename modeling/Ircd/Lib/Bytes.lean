import Mathlib.Tactic.Ring
import Mathlib.Tactic.Linarith

/-!
Byte strings as big-endian numbers, and the agreement of two of them on a
number of leading bits.

`prefix_cons_iff` is the step of every comparison that goes over the bytes: one
whole byte and the rest, or the high bits of the byte in which the prefix ends.
`prefix_iff` is the result: whole bytes, then the high bits of the next one.
-/

namespace Bytes

def Wf (bs : List Nat) : Prop := ∀ b ∈ bs, b < 256

/-- The big-endian value of a byte string. -/
def value : List Nat → Nat
  | [] => 0
  | b :: bs => b * 256 ^ bs.length + value bs

/-- The first `n` bits of a byte string, as a number. -/
def highBits (n : Nat) (bs : List Nat) : Nat := value bs / 2 ^ (8 * bs.length - n)

/-- The low `k` bits of a number cleared, `v & ~((1 << k) - 1)`. -/
def clearLow (k v : Nat) : Nat := v / 2 ^ k * 2 ^ k

/-- All bits behind the first `n` cleared. -/
def clearBeyond : Nat → List Nat → List Nat
  | _, [] => []
  | n, b :: bs =>
    if 8 ≤ n then b :: clearBeyond (n - 8) bs else clearLow (8 - n) b :: bs.map fun _ => 0

variable {b b' n : Nat} {bs bs' : List Nat}

@[simp] theorem wf_cons : Wf (b :: bs) ↔ b < 256 ∧ Wf bs := by
  simp [Wf]

theorem pow_256 (k : Nat) : 256 ^ k = 2 ^ (8 * k) := by
  rw [show 256 = 2 ^ 8 by norm_num, ← Nat.pow_mul]

theorem value_lt (h : Wf bs) : value bs < 256 ^ bs.length := by
  induction bs with
  | nil => simp [value]
  | cons b bs ih =>
    obtain ⟨hb, hbs⟩ := wf_cons.mp h
    have hlt := ih hbs
    have hmul : (b + 1) * 256 ^ bs.length ≤ 256 * 256 ^ bs.length := Nat.mul_le_mul_right _ hb
    have hsplit : (b + 1) * 256 ^ bs.length = b * 256 ^ bs.length + 256 ^ bs.length := by ring
    have hpow : 256 ^ (bs.length + 1) = 256 * 256 ^ bs.length := by ring
    simp only [value, List.length_cons]
    omega

theorem highBits_cons_of_le (hn : 8 ≤ n) (hlen : n ≤ 8 * (bs.length + 1)) :
    highBits n (b :: bs) = b * 2 ^ (n - 8) + highBits (n - 8) bs := by
  have hshift : 8 * (bs.length + 1) - n = 8 * bs.length - (n - 8) := by omega
  have hexp : 8 * bs.length = (n - 8) + (8 * bs.length - (n - 8)) := by omega
  have hpow : b * 256 ^ bs.length = b * 2 ^ (n - 8) * 2 ^ (8 * bs.length - (n - 8)) := by
    rw [pow_256, hexp, Nat.pow_add, ← Nat.mul_assoc, ← hexp]
  simp only [highBits, value, List.length_cons, hshift]
  rw [hpow, Nat.add_comm, Nat.add_mul_div_right _ _ (by positivity), Nat.add_comm]

theorem highBits_cons_of_lt (hbs : Wf bs) (hn : n < 8) :
    highBits n (b :: bs) = b / 2 ^ (8 - n) := by
  have hshift : 8 * (bs.length + 1) - n = 8 * bs.length + (8 - n) := by omega
  have hlt := value_lt hbs
  rw [pow_256] at hlt
  simp only [highBits, value, List.length_cons, hshift]
  rw [Nat.pow_add, ← Nat.div_div_eq_div_mul, pow_256, Nat.add_comm,
    Nat.add_mul_div_right _ _ (by positivity), Nat.div_eq_of_lt hlt, Nat.zero_add]

theorem highBits_lt (hbs : Wf bs) (hlen : n ≤ 8 * bs.length) : highBits n bs < 2 ^ n := by
  have hlt := value_lt hbs
  have hexp : 256 ^ bs.length = 2 ^ n * 2 ^ (8 * bs.length - n) := by
    rw [pow_256, ← Nat.pow_add, Nat.add_sub_cancel' hlen]
  exact Nat.div_lt_of_lt_mul (by rw [Nat.mul_comm, ← hexp]; exact hlt)

theorem prefix_cons_iff (hbs : Wf bs) (hbs' : Wf bs') (hlen : bs.length = bs'.length)
    (hn : 8 ≤ n) (hle : n ≤ 8 * (bs.length + 1)) :
    highBits n (b :: bs) = highBits n (b' :: bs') ↔
      b = b' ∧ highBits (n - 8) bs = highBits (n - 8) bs' := by
  rw [highBits_cons_of_le hn hle, highBits_cons_of_le hn (hlen ▸ hle)]
  have h1 := highBits_lt hbs (n := n - 8) (by omega)
  have h2 := highBits_lt hbs' (n := n - 8) (by omega)
  constructor
  · intro h
    have hdiv := congrArg (· / 2 ^ (n - 8)) h
    have hb : ∀ c x : Nat, x < 2 ^ (n - 8) → (c * 2 ^ (n - 8) + x) / 2 ^ (n - 8) = c := by
      intro c x hx
      rw [Nat.add_comm, Nat.add_mul_div_right _ _ (by positivity), Nat.div_eq_of_lt hx,
        Nat.zero_add]
    simp only [hb _ _ h1, hb _ _ h2] at hdiv
    subst hdiv
    exact ⟨rfl, Nat.add_left_cancel h⟩
  · rintro ⟨rfl, h⟩
    rw [h]

theorem prefix_iff (hbs : Wf bs) (hbs' : Wf bs') (hlen : bs.length = bs'.length)
    (hle : n ≤ 8 * bs.length) :
    highBits n bs = highBits n bs' ↔
      bs.take (n / 8) = bs'.take (n / 8) ∧
        (bs.getD (n / 8) 0) / 2 ^ (8 - n % 8) = (bs'.getD (n / 8) 0) / 2 ^ (8 - n % 8) := by
  induction bs generalizing bs' n with
  | nil =>
    have h0 : bs' = [] := List.length_eq_zero_iff.mp hlen.symm
    simp [h0]
  | cons b bs ih =>
    cases bs' with
    | nil => simp at hlen
    | cons b' bs' =>
      obtain ⟨hb, hwf⟩ := wf_cons.mp hbs
      obtain ⟨hb', hwf'⟩ := wf_cons.mp hbs'
      simp only [List.length_cons] at hlen hle
      by_cases hn : 8 ≤ n
      · have hdiv : n / 8 = (n - 8) / 8 + 1 := by omega
        have hmod : n % 8 = (n - 8) % 8 := by omega
        rw [prefix_cons_iff hwf hwf' (by omega) hn hle,
          ih hwf hwf' (by omega) (by omega), hdiv, hmod]
        simp [and_assoc]
      · have hdiv : n / 8 = 0 := by omega
        have hmod : n % 8 = n := by omega
        rw [highBits_cons_of_lt hwf (by omega), highBits_cons_of_lt hwf' (by omega), hdiv, hmod]
        simp

theorem clearLow_eq_iff {k v w : Nat} :
    clearLow k v = w ↔ v / 2 ^ k = w / 2 ^ k ∧ w % 2 ^ k = 0 := by
  have hpos : 0 < 2 ^ k := by positivity
  unfold clearLow
  constructor
  · rintro rfl
    exact ⟨(Nat.mul_div_cancel _ hpos).symm, Nat.mul_mod_left _ _⟩
  · rintro ⟨h, h0⟩
    rw [h]
    exact Nat.div_mul_cancel (Nat.dvd_of_mod_eq_zero h0)

theorem clearLow_le (k v : Nat) : clearLow k v ≤ v := Nat.div_mul_le_self v (2 ^ k)

theorem length_clearBeyond (n : Nat) (bs : List Nat) : (clearBeyond n bs).length = bs.length := by
  induction bs generalizing n with
  | nil => rfl
  | cons b bs ih =>
    unfold clearBeyond
    split <;> simp [ih]

theorem value_map_zero (bs : List Nat) : value (bs.map fun _ => 0) = 0 := by
  induction bs with
  | nil => rfl
  | cons b bs ih => rw [List.map_cons, value, ih, Nat.zero_mul]

theorem Wf.clearBeyond (h : Wf bs) (n : Nat) : Wf (clearBeyond n bs) := by
  induction bs generalizing n with
  | nil => exact h
  | cons b bs ih =>
    obtain ⟨hb, hbs⟩ := wf_cons.mp h
    unfold Bytes.clearBeyond
    split
    · exact wf_cons.mpr ⟨hb, ih hbs _⟩
    · refine wf_cons.mpr ⟨(clearLow_le _ _).trans_lt hb, ?_⟩
      intro c hc
      obtain ⟨d, -, rfl⟩ := List.mem_map.mp hc
      norm_num

theorem value_clearBeyond_mod (n : Nat) (bs : List Nat) :
    value (clearBeyond n bs) % 2 ^ (8 * bs.length - n) = 0 := by
  induction bs generalizing n with
  | nil => simp [clearBeyond, value]
  | cons b bs ih =>
    unfold clearBeyond
    split
    · rename_i hn
      have hshift : 8 * (bs.length + 1) - n = 8 * bs.length - (n - 8) := by omega
      have hdvd : 2 ^ (8 * bs.length - (n - 8)) ∣ b * 256 ^ bs.length := by
        rw [pow_256]
        exact Dvd.dvd.mul_left (pow_dvd_pow 2 (Nat.sub_le _ _)) b
      simp only [value, List.length_cons, hshift, length_clearBeyond]
      rw [Nat.add_mod, Nat.mod_eq_zero_of_dvd hdvd, ih, Nat.zero_add, Nat.zero_mod]
    · rename_i hn
      have hshift : 8 * (bs.length + 1) - n = (8 - n) + 8 * bs.length := by omega
      simp only [value, List.length_cons, hshift, List.length_map, value_map_zero, clearLow]
      rw [pow_256, Nat.add_zero, Nat.mul_assoc, ← Nat.pow_add]
      exact Nat.mul_mod_left _ _

theorem value_inj (hbs : Wf bs) (hbs' : Wf bs') (hlen : bs.length = bs'.length)
    (h : value bs = value bs') : bs = bs' := by
  induction bs generalizing bs' with
  | nil => exact (List.length_eq_zero_iff.mp hlen.symm).symm
  | cons b bs ih =>
    cases bs' with
    | nil => simp at hlen
    | cons b' bs' =>
      have hfull : 8 ≤ 8 * (bs.length + 1) := by omega
      have hbits : highBits (8 * (bs.length + 1)) (b :: bs) =
          highBits (8 * (bs.length + 1)) (b' :: bs') := by
        have hlen' : (b' :: bs').length = (b :: bs).length := hlen.symm
        rw [highBits, highBits, hlen', h]
      have htail : bs.length = bs'.length := Nat.succ.inj hlen
      obtain ⟨rfl, -⟩ := (prefix_cons_iff (wf_cons.mp hbs).2 (wf_cons.mp hbs').2 htail hfull
        (Nat.le_refl _)).mp hbits
      rw [value, value, htail] at h
      rw [ih (wf_cons.mp hbs).2 (wf_cons.mp hbs').2 htail (Nat.add_left_cancel h)]

theorem clearBeyond_eq (hn : n < 8 * bs.length) :
    clearBeyond n bs = bs.take (n / 8) ++ clearLow (8 - n % 8) (bs.getD (n / 8) 0) ::
      (bs.drop (n / 8 + 1)).map fun _ => 0 := by
  induction bs generalizing n with
  | nil => simp at hn
  | cons b bs ih =>
    rw [List.length_cons] at hn
    unfold clearBeyond
    split
    · rename_i h8
      have hdiv : n / 8 = (n - 8) / 8 + 1 := by omega
      have hmod : n % 8 = (n - 8) % 8 := by omega
      rw [ih (by omega), hdiv, hmod]
      simp
    · rename_i h8
      have hdiv : n / 8 = 0 := by omega
      have hmod : n % 8 = n := by omega
      rw [hdiv, hmod]
      simp

theorem clearBeyond_inj_iff (hbs : Wf bs) (hbs' : Wf bs') (hlen : bs.length = bs'.length)
    (hle : n ≤ 8 * bs.length) :
    clearBeyond n bs = clearBeyond n bs' ↔ highBits n bs = highBits n bs' := by
  induction bs generalizing bs' n with
  | nil =>
    have h0 : bs' = [] := List.length_eq_zero_iff.mp hlen.symm
    simp [h0]
  | cons b bs ih =>
    cases bs' with
    | nil => simp at hlen
    | cons b' bs' =>
      obtain ⟨-, hwf⟩ := wf_cons.mp hbs
      obtain ⟨-, hwf'⟩ := wf_cons.mp hbs'
      simp only [List.length_cons] at hlen hle
      unfold clearBeyond
      by_cases hn : 8 ≤ n
      · rw [if_pos hn, if_pos hn, List.cons.injEq, ih hwf hwf' (by omega) (by omega),
          prefix_cons_iff hwf hwf' (by omega) hn hle]
      · have hzeros : (bs.map fun _ => 0) = bs'.map fun _ => 0 := by
          rw [List.map_const', List.map_const', Nat.succ.inj hlen]
        rw [if_neg hn, if_neg hn, List.cons.injEq, and_iff_left hzeros,
          highBits_cons_of_lt hwf (by omega), highBits_cons_of_lt hwf' (by omega)]
        have hpos : 2 ^ (8 - n) ≠ 0 := Nat.ne_of_gt (Nat.two_pow_pos _)
        exact Nat.mul_left_inj hpos

theorem clearBeyond_clearBeyond {m : Nat} (hle : n ≤ m) (bs : List Nat) :
    clearBeyond m (clearBeyond n bs) = clearBeyond n bs := by
  have hzeros : ∀ (k : Nat) (cs : List Nat), clearBeyond k (cs.map fun _ => 0) =
      cs.map fun _ => 0 := by
    intro k cs
    induction cs generalizing k with
    | nil => rfl
    | cons c cs ih =>
      have hlow : ∀ w, clearLow w 0 = 0 := fun w => by rw [clearLow, Nat.zero_div, Nat.zero_mul]
      rw [List.map_cons, clearBeyond, ih, hlow, List.map_map]
      exact ite_self _
  induction bs generalizing n m with
  | nil => rfl
  | cons b bs ih =>
    by_cases hn : 8 ≤ n
    · have hm : 8 ≤ m := hn.trans hle
      simp [clearBeyond, hn, hm, ih (Nat.sub_le_sub_right hle 8)]
    · by_cases hm : 8 ≤ m
      · simp only [clearBeyond, hn, hm, if_false, if_true, hzeros]
      · have hdvd : 2 ^ (8 - m) ∣ clearLow (8 - n) b :=
          (Nat.pow_dvd_pow 2 (by omega)).trans (Nat.dvd_mul_left _ _)
        have hlow : clearLow (8 - m) (clearLow (8 - n) b) = clearLow (8 - n) b :=
          clearLow_eq_iff.mpr ⟨rfl, Nat.mod_eq_zero_of_dvd hdvd⟩
        simp [clearBeyond, hn, hm, hlow]

theorem clearBeyond_idem (n : Nat) (bs : List Nat) :
    clearBeyond n (clearBeyond n bs) = clearBeyond n bs :=
  clearBeyond_clearBeyond (le_refl n) bs

theorem highBits_clearBeyond (h : Wf bs) (hle : n ≤ 8 * bs.length) :
    highBits n (clearBeyond n bs) = highBits n bs := by
  have hlen : (clearBeyond n bs).length = bs.length := length_clearBeyond n bs
  rw [← clearBeyond_inj_iff (h.clearBeyond n) h hlen (hlen.symm ▸ hle), clearBeyond_idem]

theorem value_clearBeyond (h : Wf bs) (hle : n ≤ 8 * bs.length) :
    value (clearBeyond n bs) = clearLow (8 * bs.length - n) (value bs) := by
  have hlow := value_clearBeyond_mod n bs
  have hlen : (clearBeyond n bs).length = bs.length := length_clearBeyond n bs
  have hagree := highBits_clearBeyond h hle
  rw [highBits, highBits, hlen] at hagree
  exact (clearLow_eq_iff.mpr ⟨hagree.symm, hlow⟩).symm

theorem clearBeyond_full (h : Wf bs) : clearBeyond (8 * bs.length) bs = bs := by
  apply value_inj (h.clearBeyond _) h (length_clearBeyond _ bs)
  rw [value_clearBeyond h (le_refl _), Nat.sub_self, clearLow, Nat.pow_zero, Nat.div_one,
    Nat.mul_one]

theorem highBits_succ_clearBeyond (h : Wf bs) (hlt : n < 8 * bs.length) :
    highBits (n + 1) (clearBeyond n bs) = 2 * highBits n bs := by
  have hpow : 2 ^ (8 * bs.length - n) = 2 * 2 ^ (8 * bs.length - (n + 1)) := by
    rw [← pow_succ']
    congr 1
    omega
  rw [highBits, value_clearBeyond h hlt.le, length_clearBeyond, clearLow, highBits]
  generalize value bs / 2 ^ (8 * bs.length - n) = v
  rw [hpow, ← Nat.mul_assoc, Nat.mul_div_cancel _ (Nat.two_pow_pos _), Nat.mul_comm]

/-- A byte array of a fixed size, as the address structures hold it. -/
structure Block (size : Nat) where
  bytes : List Nat
  length_eq : bytes.length = size
  wf : Wf bytes

/-- The array that holds the given values, each cut to a byte. -/
def Block.ofList (size : Nat) (vals : List Nat) : Block size where
  bytes := (List.range size).map fun i => vals.getD i 0 % 256
  length_eq := by simp
  wf := by
    intro b hb
    obtain ⟨i, -, rfl⟩ := List.mem_map.mp hb
    exact Nat.mod_lt _ (by norm_num)

/-- The array with all bits behind the first `n` cleared. -/
def Block.clearBeyond {size : Nat} (n : Nat) (a : Block size) : Block size where
  bytes := Bytes.clearBeyond n a.bytes
  length_eq := by rw [length_clearBeyond, a.length_eq]
  wf := a.wf.clearBeyond n

theorem Block.getD_lt {size : Nat} (a : Block size) (i : Nat) : a.bytes.getD i 0 < 256 := by
  rw [List.getD_eq_getElem?_getD]
  cases hi : a.bytes[i]? with
  | none => norm_num
  | some b => exact a.wf b (List.mem_of_getElem? hi)

theorem Block.eq_of_bytes {size : Nat} {a b : Block size} (h : a.bytes = b.bytes) : a = b := by
  cases a
  cases b
  exact (Block.mk.injEq ..).mpr h

theorem Block.bytes_ofList {size : Nat} {vals : List Nat} (hlen : vals.length = size)
    (hwf : Wf vals) : (Block.ofList size vals).bytes = vals := by
  apply List.ext_getElem
  · rw [Block.length_eq, hlen]
  · intro i hi hi'
    have hval : vals[i] < 256 := hwf _ (List.getElem_mem hi')
    simp [Block.ofList, hi', Nat.mod_eq_of_lt hval]

theorem Block.ofList_bytes {size : Nat} (a : Block size) : Block.ofList size a.bytes = a :=
  Block.eq_of_bytes (Block.bytes_ofList a.length_eq a.wf)

end Bytes
