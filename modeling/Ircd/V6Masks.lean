import Ircd.V6Grammar

/-!
IPv6 masks as `try_parse_v6_netmask` makes them, and as `match_ipv6` compares them.

With a prefix length the function takes `::` for only as many words as fill up the
prefix, keeps one bit too many of the word in which the prefix ends, and without `::`
leaves the array or takes the text for a host name. `V6Text.maskRight_iff` says when the
mask is right all the same.
-/

namespace Ircd

open List
open Bytes (clearLow highBits)

def prefixWords (n : Nat) : Nat := n / 16 + if n % 16 = 0 then 0 else 1

/-- What the function makes of the words in `d`, where `place` is that of the gap. -/
def v6Filled (entries : List Nat) (place : Option Nat) (bits : Nat) : NetMask :=
  .ipv6
    (addressOf (v6Clear bits (v6Fill (entries ++ List.replicate (8 - entries.length) 0) place 8 0
      ((prefixWords bits : Int) - entries.length))))
    bits

/-! ### The end of the text -/

theorem v6Loop_slash {st : V6Parse} {bits : Nat} {p : Option Char} {w : CStr} (hne : w ≠ [])
    (hw : ∀ c ∈ w, isDigit c = true) (hle : readDigits 0 w ≤ 128) :
    v6Loop st bits p ('/' :: w) =
      if (st.dp + 1) * 4 < readDigits 0 w ∧ st.finsert = none then none
      else some ({ st.shift with dp := st.dp + 1 }, readDigits 0 w, false) := by
  have hread := strtoul_digits hne hw (by rw [ULONG_MAX]; omega)
  have hint : toInt32 (readDigits 0 w) = readDigits 0 w := toInt32_of_lt (by omega)
  have hfinsert : st.shift.finsert = st.finsert := rfl
  rw [v6Loop]
  simp only [show hexVal '/' = none from rfl, hread, hint, hfinsert]
  rw [if_neg (by decide), if_neg (by decide), if_pos trivial, if_neg (by simp)]
  by_cases hbig : (st.dp + 1) * 4 < readDigits 0 w ∧ st.finsert = none
  · rw [if_pos hbig, if_pos ⟨by omega, by simp [hbig.2]⟩]
  · rw [if_neg hbig, if_neg]
    · rfl
    · rintro ⟨hlt, hnot⟩
      apply hbig
      refine ⟨by omega, ?_⟩
      cases hf : st.finsert with
      | none => rfl
      | some f => exact absurd ⟨by simp [hf], by omega⟩ hnot

theorem V6Text.d_eq {t : V6Text} {ws : List Nat} {acc : Nat} (hwords : ws ++ [acc] = t.entries) :
    ws ++ acc :: List.replicate (7 - ws.length) 0 =
      t.entries ++ List.replicate (8 - t.entries.length) 0 := by
  rw [← hwords]
  simp

theorem shift_zeros (l : List Nat) (m k : Nat) :
    (l ++ List.replicate m 0).modify l.length (fun w => w >>> k) = l ++ List.replicate m 0 := by
  cases m with
  | zero => simp [modify_eq_set_getElem?]
  | succ m => rw [replicate_succ, modify_length_append, Nat.zero_shiftRight]

theorem tryParse_address (t : V6Text) :
    tryParseV6Netmask t.text = v6Filled t.entries t.place 128 := by
  obtain ⟨ws, acc, k, p, hwords, hloop⟩ := v6Loop_text t 128 []
  rw [append_nil, v6Start] at hloop
  have hlen : ws.length + 1 = t.entries.length := by rw [← hwords]; simp
  unfold tryParseV6Netmask
  rw [hloop, v6Loop]
  simp only [shift_reading, if_true, V6Text.d_eq hwords]
  rw [if_neg (by simp)]
  simp only [V6Parse.reading, hlen]
  rfl

theorem tryParse_slash (t : V6Text) {w : CStr} (hne : w ≠ []) (hw : ∀ c ∈ w, isDigit c = true)
    (hle : readDigits 0 w ≤ 128) (hgap : t.place ≠ none) :
    tryParseV6Netmask (t.text ++ '/' :: w) = v6Filled t.entries t.place (readDigits 0 w) := by
  obtain ⟨ws, acc, k, p, hwords, hloop⟩ := v6Loop_text t 128 ('/' :: w)
  have hlen : ws.length + 1 = t.entries.length := by rw [← hwords]; simp
  have hplace : (V6Parse.reading ws acc k t.place).finsert = t.place := rfl
  rw [v6Loop_slash hne hw hle, hplace, if_neg (fun h => hgap h.2), v6Start] at hloop
  simp only [shift_reading, V6Text.d_eq hwords] at hloop
  simp only [V6Parse.reading, hlen] at hloop
  unfold tryParseV6Netmask
  rw [hloop]
  simp only [V6Parse.shift, shift_zeros]
  rw [if_neg (fun h => hgap h.1)]
  rfl

/-! ### The gap -/

/-- The words of the address, with `::` taken for only as many words of zeros as are
wanting to `q` words. -/
def V6Text.filled : V6Text → Nat → List Nat
  | full groups _ _, _ => groups.map (readHex 0)
  | gap front back _ _, q =>
    let front := sideWords front
    let back := sideWords back
    if front.length + back.length ≤ q then
      front ++ List.replicate (q - (front.length + back.length)) 0 ++ back ++
        List.replicate (8 - q) 0
    else front ++ List.replicate (8 - front.length) 0

section Fill

variable {l r : List Nat} {f : Option Nat} {a room m : Nat} {D : Int}

variable (l r) in
theorem v6Fill_copy {ws : List Nat} (hsmall : ∀ w ∈ ws, w < 2 ^ 16) (hstop : f = none ∨ D = 0) :
    v6Fill (l ++ ws ++ r) f ws.length l.length D = ws := by
  induction ws generalizing l with
  | nil => rfl
  | cons w ws ih =>
    have hgo : ¬ (f = some l.length ∧ D ≠ 0) := by
      rintro ⟨hf, hD⟩
      rcases hstop with hnone | hzero
      · rw [hnone] at hf
        cases hf
      · exact hD hzero
    have hnext := ih (l ++ [w]) fun v hv => hsmall v (mem_cons_of_mem w hv)
    have hword : (l ++ w :: (ws ++ r)).getD l.length 0 = w := by simp
    simp only [append_assoc, cons_append, nil_append, length_append,
      length_singleton] at hnext
    rw [length_cons, v6Fill, if_neg hgo]
    simp only [append_assoc, cons_append, hnext, hword]
    rw [Nat.mod_eq_of_lt (hsmall w mem_cons_self)]

variable (l r room D) in
theorem v6Fill_front {ws : List Nat} (hsmall : ∀ w ∈ ws, w < 2 ^ 16) :
    v6Fill (l ++ ws ++ r) (some (l.length + ws.length)) (ws.length + room) l.length D =
      ws ++ v6Fill (l ++ ws ++ r) (some (l.length + ws.length)) room (l.length + ws.length) D := by
  induction ws generalizing l with
  | nil => simp
  | cons w ws ih =>
    have hnext := ih (l ++ [w]) fun v hv => hsmall v (mem_cons_of_mem w hv)
    have hplace : l.length + 1 + ws.length = l.length + (ws.length + 1) := by omega
    have hword : (l ++ w :: (ws ++ r)).getD l.length 0 = w := by simp
    simp only [append_assoc, cons_append, nil_append, length_append,
      length_singleton, hplace] at hnext
    rw [length_cons, Nat.add_right_comm, v6Fill, if_neg (by simp)]
    simp only [append_assoc, cons_append, hnext, hword]
    rw [Nat.mod_eq_of_lt (hsmall w mem_cons_self)]

theorem v6Fill_zeros : v6Fill l (some a) (m + room) a m =
    List.replicate m 0 ++ v6Fill l (some a) room a 0 := by
  induction m with
  | zero => simp
  | succ m ih =>
    have hnext : ((m + 1 : Nat) : Int) - 1 = m := by omega
    rw [Nat.add_right_comm, v6Fill, if_pos ⟨rfl, by omega⟩, hnext, ih]
    rfl

theorem v6Fill_rest (hneg : D < 0) :
    v6Fill l (some a) room a D = List.replicate room 0 := by
  induction room generalizing D with
  | zero => rfl
  | succ room ih => rw [v6Fill, if_pos ⟨rfl, by omega⟩, ih (by omega), replicate_succ]

end Fill

theorem readHex_lt {g : CStr} {acc k : Nat} (hg : ∀ c ∈ g, (hexVal c).isSome = true)
    (hacc : acc < 16 ^ k) : readHex acc g < 16 ^ (k + g.length) := by
  induction g generalizing acc k with
  | nil => exact hacc
  | cons c g ih =>
    obtain ⟨v, hv⟩ := Option.isSome_iff_exists.mp (hg c mem_cons_self)
    have hlt := hexVal_lt hv
    have hnext : acc * 16 + v < 16 ^ (k + 1) := by
      rw [pow_succ]
      omega
    have h := ih (fun d hd => hg d (mem_cons_of_mem c hd)) hnext
    rw [readHex, hv, length_cons, Nat.add_comm g.length, ← Nat.add_assoc]
    exact h

theorem IsGroup.lt {g : CStr} (hg : IsGroup g) : readHex 0 g < 2 ^ 16 := by
  obtain ⟨-, hlen, hhex⟩ := hg
  have hlt : readHex 0 g < 16 ^ (0 + g.length) := readHex_lt hhex (by simp)
  have hpow : 16 ^ (0 + g.length) ≤ 16 ^ 4 := Nat.pow_le_pow_right (by omega) (by omega)
  have htop : 16 ^ 4 = 2 ^ 16 := by norm_num
  omega

theorem sideWords_lt {gs : List CStr} (hgs : ∀ g ∈ gs, IsGroup g) :
    ∀ w ∈ sideWords gs, w < 2 ^ 16 := by
  intro w hw
  unfold sideWords at hw
  split_ifs at hw
  · rw [List.mem_singleton.mp hw]
    norm_num
  · obtain ⟨g, hg, rfl⟩ := List.mem_map.mp hw
    exact (hgs g hg).lt

theorem sideWords_append_zeros (gs : List CStr) (m : Nat) :
    sideWords gs ++ List.replicate m 0 =
      gs.map (readHex 0) ++ List.replicate (m + ((sideWords gs).length - gs.length)) 0 := by
  unfold sideWords
  split_ifs with h
  · subst h
    have hone : [0].length - ([] : List CStr).length = 1 := rfl
    rw [hone, replicate_succ]
    rfl
  · simp

theorem zeros_append_sideWords (gs : List CStr) (m : Nat) :
    List.replicate m 0 ++ sideWords gs =
      List.replicate (m + ((sideWords gs).length - gs.length)) 0 ++ gs.map (readHex 0) := by
  unfold sideWords
  split_ifs with h
  · subst h
    have hone : [0].length - ([] : List CStr).length = 1 := rfl
    rw [hone, replicate_succ', map_nil, append_nil]
  · simp

namespace V6Text

theorem entries_lt (t : V6Text) : ∀ w ∈ t.entries, w < 2 ^ 16 := by
  intro w hw
  cases t with
  | full groups valid eight =>
    obtain ⟨g, hg, rfl⟩ := List.mem_map.mp hw
    exact (valid g hg).lt
  | gap front back valid short =>
    rcases List.mem_append.mp hw with h | h
    · exact sideWords_lt (fun g hg => valid g (mem_append_left _ hg)) w h
    · exact sideWords_lt (fun g hg => valid g (mem_append_right _ hg)) w h

theorem fill_eq (t : V6Text) {q : Nat} (hq : q ≤ 8) :
    v6Fill (t.entries ++ List.replicate (8 - t.entries.length) 0) t.place 8 0
      ((q : Int) - t.entries.length) = t.filled q := by
  obtain ⟨-, hlen⟩ := t.length_entries
  have hsmall := t.entries_lt
  cases t with
  | full groups valid eight =>
    have hcopy := v6Fill_copy [] [] (f := none) (D := (q : Int) - 8) hsmall (.inl rfl)
    simp only [entries, length_map, eight, length_nil, nil_append,
      append_nil] at hcopy
    simp only [entries, place, filled, length_map, eight, Nat.sub_self, replicate_zero,
      append_nil]
    exact hcopy
  | gap front back valid short =>
    simp only [entries] at hsmall hlen ⊢
    simp only [place, filled]
    have hpos : 0 < (sideWords back).length := length_pos_of_ne_nil (sideWords_ne_nil back)
    generalize sideWords front = xs at *
    generalize sideWords back = ys at *
    rw [length_append] at hlen ⊢
    have hfront := v6Fill_front [] (ys ++ List.replicate (8 - (xs.length + ys.length)) 0)
      (8 - xs.length) ((q : Int) - ↑(xs.length + ys.length)) fun w hw =>
        hsmall w (mem_append_left _ hw)
    have hroom : xs.length + (8 - xs.length) = 8 := by omega
    simp only [nil_append, length_nil, Nat.zero_add, hroom, ← append_assoc]
      at hfront
    rw [hfront]
    by_cases hfits : xs.length + ys.length ≤ q
    · rw [if_pos hfits]
      obtain ⟨m, hm⟩ : ∃ m, q = xs.length + ys.length + m :=
          ⟨q - (xs.length + ys.length), by omega⟩
      have hleft : 8 - xs.length = m + (ys.length + (8 - q)) := by omega
      have hmid : q - (xs.length + ys.length) = m := by omega
      have hdeficit : (q : Int) - ↑(xs.length + ys.length) = m := by omega
      have htail : 8 - (xs.length + ys.length) = (8 - q) + m := by omega
      have hbehind : ∀ w ∈ ys ++ List.replicate (8 - q) 0, w < 2 ^ 16 := by
        intro w hw
        rcases List.mem_append.mp hw with h | h
        · exact hsmall w (mem_append_right _ h)
        · rw [eq_of_mem_replicate h]
          norm_num
      have hcopy := v6Fill_copy xs (List.replicate m 0) (f := some xs.length) (D := 0) hbehind
        (.inr rfl)
      rw [length_append, length_replicate] at hcopy
      rw [hdeficit, hleft, v6Fill_zeros, hmid, htail, ← replicate_append_replicate]
      simp only [append_assoc] at hcopy ⊢
      rw [hcopy]
    · rw [if_neg hfits, v6Fill_rest (by omega)]

theorem filled_eight (t : V6Text) : t.filled 8 = t.words := by
  have hlen := t.length_entries.2
  cases t with
  | full groups valid eight => rfl
  | gap front back valid short =>
    simp only [entries, length_append] at hlen
    have hf := length_sideWords front
    have hb := length_sideWords back
    simp only [filled, if_pos hlen, Nat.sub_self, replicate_zero, append_nil, words]
    rw [sideWords_append_zeros, append_assoc, zeros_append_sideWords, ← append_assoc]
    congr 3
    omega

theorem length_filled (t : V6Text) {q : Nat} (hq : q ≤ 8) : (t.filled q).length = 8 := by
  have hlen := t.length_entries.2
  cases t with
  | full groups valid eight => rw [filled, length_map, eight]
  | gap front back valid short =>
    simp only [entries, length_append] at hlen
    simp only [filled]
    split_ifs <;> simp only [length_append, length_replicate] <;> omega

theorem filled_lt (t : V6Text) (q : Nat) : ∀ w ∈ t.filled q, w < 2 ^ 16 := by
  have hsmall := t.entries_lt
  intro w hw
  cases t with
  | full groups valid eight => exact hsmall w hw
  | gap front back valid short =>
    simp only [filled] at hw
    split_ifs at hw
    · simp only [mem_append, mem_replicate] at hw
      rcases hw with ((h | ⟨-, rfl⟩) | h) | ⟨-, rfl⟩
      · exact hsmall w (mem_append_left _ h)
      · norm_num
      · exact hsmall w (mem_append_right _ h)
      · norm_num
    · simp only [mem_append, mem_replicate] at hw
      rcases hw with h | ⟨-, rfl⟩
      · exact hsmall w (mem_append_left _ h)
      · norm_num

end V6Text

/-! ### The bits behind the prefix -/

/-- The bits that are kept: where the prefix ends inside a word, one more than it has. -/
def keptBits (n : Nat) : Nat := if n % 16 = 0 then n else n + 1

theorem groupBytes_clearLow {k : Nat} (hk : k ≤ 16) (w : Nat) :
    groupBytes (clearLow k w) = Bytes.clearBeyond (16 - k) (groupBytes w) := by
  have hw : w = 256 * (w / 256) + w % 256 := (Nat.div_add_mod w 256).symm
  have hlow : w % 256 < 256 := Nat.mod_lt _ (by norm_num)
  simp only [groupBytes, Bytes.clearBeyond, map_nil]
  generalize w / 256 = h at *
  generalize w % 256 = l at *
  by_cases h8 : k ≤ 8
  · -- The high byte stays.
    have hpow : 256 = 2 ^ k * 2 ^ (8 - k) := by rw [← pow_add, Nat.add_sub_of_le h8]; norm_num
    have hclear : clearLow k w = 256 * h + clearLow k l := by
      rw [hw, clearLow, clearLow, hpow, Nat.mul_assoc, Nat.mul_add_div (Nat.two_pow_pos k),
        Nat.add_mul]
      ring
    have hle : clearLow k l ≤ l := Bytes.clearLow_le k l
    rw [if_pos (by omega), hclear]
    have hhigh : (256 * h + clearLow k l) / 256 = h := by omega
    have hrest : (256 * h + clearLow k l) % 256 = clearLow k l := by omega
    rw [hhigh, hrest]
    by_cases h0 : k = 0
    · subst h0
      simp [clearLow]
    · rw [if_neg (by omega), show 8 - (16 - k - 8) = k by omega]
  · -- The low byte goes.
    obtain ⟨j, rfl⟩ : ∃ j, k = 8 + j := ⟨k - 8, by omega⟩
    have hclear : clearLow (8 + j) w = clearLow j h * 256 := by
      rw [clearLow, clearLow, pow_add, ← Nat.div_div_eq_div_mul, hw]
      have hdiv : (256 * h + l) / 2 ^ 8 = h := by omega
      rw [hdiv]
      ring
    rw [if_neg (by omega), hclear, Nat.mul_div_cancel _ (by norm_num), Nat.mul_mod_left,
      show 8 - (16 - (8 + j)) = j by omega]
    rfl

theorem clearBeyond_word (n w : Nat) (bs : List Nat) :
    Bytes.clearBeyond n (groupBytes w ++ bs) =
      if 16 ≤ n then groupBytes w ++ Bytes.clearBeyond (n - 16) bs
      else Bytes.clearBeyond n (groupBytes w) ++ bs.map fun _ => 0 := by
  simp only [groupBytes, cons_append, nil_append, Bytes.clearBeyond]
  by_cases h16 : 16 ≤ n
  · rw [if_pos (by omega), if_pos (by omega), if_pos h16, Nat.sub_sub]
  · rw [if_neg h16]
    by_cases h8 : 8 ≤ n
    · simp [if_pos h8, if_neg (show ¬ 8 ≤ n - 8 by omega)]
    · simp [if_neg h8]

theorem clearBeyond_zero {bs : List Nat} (h : Bytes.Wf bs) :
    Bytes.clearBeyond 0 bs = bs.map fun _ => 0 := by
  cases bs with
  | nil => rfl
  | cons b bs =>
    have hzero : clearLow 8 b = 0 := by
      have hlt : b < 2 ^ 8 := h b mem_cons_self
      rw [clearLow, Nat.div_eq_of_lt hlt, Nat.zero_mul]
    rw [Bytes.clearBeyond, if_neg (by norm_num), hzero, map_cons]

theorem wf_flatMap_groupBytes {ws : List Nat} (hsmall : ∀ w ∈ ws, w < 2 ^ 16) :
    Bytes.Wf (ws.flatMap groupBytes) := by
  intro b hb
  obtain ⟨w, hw, hmem⟩ := List.mem_flatMap.mp hb
  have hlt := hsmall w hw
  simp only [groupBytes, mem_cons, not_mem_nil, or_false] at hmem
  omega

theorem v6Clear_cons (n w : Nat) (ws : List Nat) :
    v6Clear n (w :: ws) =
      if 16 ≤ n then w :: v6Clear (n - 16) ws
      else (if n = 0 then 0 else clearLow (15 - n) w) :: ws.map fun _ => 0 := by
  unfold v6Clear
  rw [mapIdx_cons]
  by_cases hword : 16 ≤ n
  · have hdiv : n / 16 = (n - 16) / 16 + 1 := by omega
    have hmod : n % 16 = (n - 16) % 16 := by omega
    rw [if_pos hword, if_pos (by omega)]
    simp only [hdiv, hmod, Nat.add_lt_add_iff_right, Nat.add_right_cancel_iff]
  · have hdiv : n / 16 = 0 := by omega
    have hmod : n % 16 = n := by omega
    have hzeros : (ws.mapIdx fun _ _ => 0) = ws.map fun _ => 0 := by
      rw [map_const', mapIdx_eq_replicate_iff]
      exact fun _ _ => rfl
    rw [if_neg hword, ← hzeros]
    by_cases h0 : n = 0
    · simp [h0]
    · simp [hdiv, hmod, h0]

theorem flatMap_v6Clear (n : Nat) {ws : List Nat} (hsmall : ∀ w ∈ ws, w < 2 ^ 16) :
    (v6Clear n ws).flatMap groupBytes =
      Bytes.clearBeyond (keptBits n) (ws.flatMap groupBytes) := by
  induction ws generalizing n with
  | nil => rfl
  | cons w ws ih =>
    have hrest : ∀ v ∈ ws, v < 2 ^ 16 := fun v hv => hsmall v (mem_cons_of_mem w hv)
    have hzeros : (ws.map fun _ => 0).flatMap groupBytes =
        (ws.flatMap groupBytes).map fun _ => 0 := by
      rw [map_flatMap, flatMap_map]
      rfl
    rw [flatMap_cons, v6Clear_cons]
    by_cases hword : 16 ≤ n
    · have hkept : keptBits n - 16 = keptBits (n - 16) := by
        unfold keptBits
        split_ifs <;> omega
      have hge : 16 ≤ keptBits n := by
        unfold keptBits
        split_ifs <;> omega
      rw [if_pos hword, flatMap_cons, clearBeyond_word, if_pos hge, hkept, ih _ hrest]
    · rw [if_neg hword, flatMap_cons, hzeros]
      by_cases h0 : n = 0
      · have hclear : clearLow 16 w = 0 := by
          rw [clearLow, Nat.div_eq_of_lt (hsmall w mem_cons_self), Nat.zero_mul]
        have hhead := groupBytes_clearLow (le_refl 16) w
        subst h0
        rw [hclear] at hhead
        rw [if_pos rfl, hhead, clearBeyond_word]
        rfl
      · have hkept : keptBits n = n + 1 := if_neg (by omega)
        rw [if_neg h0, groupBytes_clearLow (by omega), hkept, clearBeyond_word]
        by_cases hlast : n = 15
        · subst hlast
          rw [if_pos (by norm_num), ← clearBeyond_zero (wf_flatMap_groupBytes hrest)]
          rfl
        · rw [if_neg (by omega), show 16 - (15 - n) = n + 1 by omega]

theorem addressOf_v6Clear (n : Nat) {ws : List Nat} (hsmall : ∀ w ∈ ws, w < 2 ^ 16)
    (hlen : ws.length = 8) :
    addressOf (v6Clear n ws) = (addressOf ws).clearBeyond (keptBits n) := by
  have hbytes : ∀ vs : List Nat, vs.length = 8 → (vs.flatMap groupBytes).length = 16 := by
    intro vs hvs
    simp [length_flatMap, groupBytes, hvs]
  have hclear : (v6Clear n ws).length = 8 := by rw [v6Clear, length_mapIdx, hlen]
  have hwf := wf_flatMap_groupBytes hsmall
  apply Bytes.Block.eq_of_bytes
  have hwf' : Bytes.Wf ((v6Clear n ws).flatMap groupBytes) := by
    rw [flatMap_v6Clear n hsmall]
    exact hwf.clearBeyond _
  rw [addressOf, Bytes.Block.bytes_ofList (hbytes _ hclear) hwf', flatMap_v6Clear n hsmall]
  have hplain : (addressOf ws).bytes = ws.flatMap groupBytes :=
    Bytes.Block.bytes_ofList (hbytes ws hlen) hwf
  rw [← hplain]
  rfl

theorem clearBeyond_keptBits_iff {n : Nat} (hle : n ≤ 128) (a b : In6Addr) :
    a.clearBeyond (keptBits n) = b.clearBeyond n ↔
      if n % 16 = 0 then highBits n a.bytes = highBits n b.bytes
      else highBits (n + 1) a.bytes = 2 * highBits n b.bytes := by
  have hkept : n ≤ keptBits n ∧ keptBits n ≤ 128 := by
    unfold keptBits
    split_ifs <;> omega
  have ha := a.length_eq
  have hb := b.length_eq
  have hiff : a.clearBeyond (keptBits n) = b.clearBeyond n ↔
      highBits (keptBits n) a.bytes = highBits (keptBits n) (Bytes.clearBeyond n b.bytes) := by
    rw [← Bytes.clearBeyond_inj_iff a.wf (b.wf.clearBeyond n)
      (by rw [Bytes.length_clearBeyond, ha, hb]) (by omega),
      Bytes.clearBeyond_clearBeyond hkept.1]
    exact ⟨fun h => congrArg Bytes.Block.bytes h, fun h => Bytes.Block.eq_of_bytes h⟩
  rw [hiff, keptBits]
  by_cases h16 : n % 16 = 0
  · rw [if_pos h16, if_pos h16, Bytes.highBits_clearBeyond b.wf (by omega)]
  · rw [if_neg h16, if_neg h16, Bytes.highBits_succ_clearBeyond b.wf (by omega)]

/-! ### Masks -/

/-- The indices into the two addresses in `match_ipv6`. -/
def matchIndices (bits : Nat) : List Nat :=
  List.range (bits / 8) ++ if bits % 8 = 0 then [] else [bits / 8]

theorem matchIndices_lt {bits : Nat} (hle : bits ≤ 128) : ∀ i ∈ matchIndices bits, i < 16 := by
  intro i hi
  rcases List.mem_append.mp hi with hwhole | hpart
  · have hlt := List.mem_range.mp hwhole
    omega
  · split_ifs at hpart
    · cases hpart
    · rw [List.mem_singleton.mp hpart]
      omega

theorem tidy_clearBeyond {n : Nat} (hle : n ≤ 128) (b : In6Addr) : Tidy (b.clearBeyond n) n := by
  intro hpart
  have hlt : n < 8 * b.bytes.length := by
    rw [b.length_eq]
    omega
  have hlen : (b.bytes.take (n / 8)).length = n / 8 := by
    rw [length_take]
    omega
  have hbyte : (b.clearBeyond n).bytes.getD (n / 8) 0 =
      clearLow (8 - n % 8) (b.bytes.getD (n / 8) 0) := by
    have hcut : (b.clearBeyond n).bytes = _ := Bytes.clearBeyond_eq hlt
    rw [hcut, getD_eq_getElem?_getD, getElem?_append_right hlen.le, hlen, Nat.sub_self]
    rfl
  rw [hbyte]
  exact Nat.mul_mod_left _ _

theorem matchIpv6_network {n : Nat} (hle : n ≤ 128) (a b : In6Addr) :
    matchIpv6 a (b.clearBeyond n) n = true ↔ highBits n a.bytes = highBits n b.bytes := by
  have hprefix : highBits n (b.clearBeyond n).bytes = highBits n b.bytes :=
    Bytes.highBits_clearBeyond b.wf (by rw [b.length_eq]; omega)
  rw [matchIpv6_iff hle, hprefix, and_iff_left (tidy_clearBeyond hle b)]

namespace V6Text

/-- The text with the prefix length `w` gives the prefix of its address as the mask, and
the mask matches the addresses that have this prefix. -/
def MaskRight (t : V6Text) (w : CStr) : Prop :=
  ∃ mask bits, tryParseV6Netmask (t.text ++ '/' :: w) = .ipv6 mask bits ∧
    bits = readDigits 0 w ∧ mask = t.address.clearBeyond bits ∧
    (∀ a, matchIpv6 a mask bits = true ↔
      highBits bits a.bytes = highBits bits t.address.bytes) ∧
    (∀ i ∈ v6Indices (t.text ++ '/' :: w), i < 8) ∧ ∀ i ∈ matchIndices bits, i < 16

/-- The text has `::`, and one word besides what its sides take in `d`. With `::` taken
for only as many words as fill up the prefix, it still begins with the prefix of its
address, and has no bit right behind a prefix that ends inside a word. -/
def FillsRight (t : V6Text) (n : Nat) : Prop :=
  t.place ≠ none ∧ t.entries.length ≤ 7 ∧
    if n % 16 = 0 then
      highBits n (addressOf (t.filled (prefixWords n))).bytes = highBits n t.address.bytes
    else
      highBits (n + 1) (addressOf (t.filled (prefixWords n))).bytes =
        2 * highBits n t.address.bytes

instance (t : V6Text) (n : Nat) : Decidable (t.FillsRight n) :=
  inferInstanceAs (Decidable (_ ∧ _))

theorem indices_iff (t : V6Text) {w : CStr} (hne : w ≠ []) (hw : ∀ c ∈ w, isDigit c = true)
    (hle : readDigits 0 w ≤ 128) :
    (∀ i ∈ v6Indices (t.text ++ '/' :: w), i < 8) ↔
      t.entries.length ≤ 7 ∨ t.entries.length * 4 < readDigits 0 w ∧ t.place = none := by
  obtain ⟨ws, acc, k, p, hwords, hloop⟩ := v6Loop_text t 128 ('/' :: w)
  have hlen : t.entries.length = ws.length + 1 := by rw [← hwords]; simp
  have hdp : (V6Parse.reading ws acc k t.place).dp = ws.length := rfl
  have hplace : (V6Parse.reading ws acc k t.place).finsert = t.place := rfl
  have htop := t.length_entries.2
  rw [v6Indices_lt_iff, hloop, v6Loop_slash hne hw hle, hplace, hdp, ← hlen]
  by_cases hrefused : t.entries.length * 4 < readDigits 0 w ∧ t.place = none
  · simp [hrefused]
  · simp only [if_neg hrefused, Option.some.injEq, forall_eq', or_iff_left hrefused]
    omega

theorem tryParse_refused (t : V6Text) {w : CStr} (hne : w ≠ []) (hw : ∀ c ∈ w, isDigit c = true)
    (hle : readDigits 0 w ≤ 128) (hbig : t.entries.length * 4 < readDigits 0 w)
    (hfull : t.place = none) : tryParseV6Netmask (t.text ++ '/' :: w) = .host := by
  obtain ⟨ws, acc, k, p, hwords, hloop⟩ := v6Loop_text t 128 ('/' :: w)
  have hlen : t.entries.length = ws.length + 1 := by rw [← hwords]; simp
  have hdp : (V6Parse.reading ws acc k t.place).dp = ws.length := rfl
  have hplace : (V6Parse.reading ws acc k t.place).finsert = t.place := rfl
  rw [v6Loop_slash hne hw hle, hplace, hdp, ← hlen, if_pos ⟨hbig, hfull⟩, v6Start] at hloop
  rw [tryParseV6Netmask, hloop]

theorem length_full {t : V6Text} (hfull : t.place = none) : t.entries.length = 8 := by
  cases t with
  | full groups valid eight => rw [entries, length_map, eight]
  | gap front back valid short => cases hfull

theorem tryParse_filled (t : V6Text) {w : CStr} (hne : w ≠ []) (hw : ∀ c ∈ w, isDigit c = true)
    (hle : readDigits 0 w ≤ 128) (hgap : t.place ≠ none) :
    tryParseV6Netmask (t.text ++ '/' :: w) =
      .ipv6 ((addressOf (t.filled (prefixWords (readDigits 0 w)))).clearBeyond
        (keptBits (readDigits 0 w))) (readDigits 0 w) := by
  have hq : prefixWords (readDigits 0 w) ≤ 8 := by
    unfold prefixWords
    split_ifs <;> omega
  rw [tryParse_slash t hne hw hle hgap, v6Filled, fill_eq t hq,
    addressOf_v6Clear _ (t.filled_lt _) (t.length_filled hq)]

theorem maskRight_iff (t : V6Text) {w : CStr} (hne : w ≠ []) (hw : ∀ c ∈ w, isDigit c = true)
    (hle : readDigits 0 w ≤ 128) : t.MaskRight w ↔ t.FillsRight (readDigits 0 w) := by
  constructor
  · rintro ⟨mask, bits, hparse, rfl, rfl, -, hin, -⟩
    rcases (indices_iff t hne hw hle).mp hin with hroom | ⟨hbig, hfull⟩
    · have hgap : t.place ≠ none := by
        intro hfull
        have height := length_full hfull
        omega
      rw [tryParse_filled t hne hw hle hgap, NetMask.ipv6.injEq] at hparse
      exact ⟨hgap, hroom, (clearBeyond_keptBits_iff hle _ _).mp hparse.1⟩
    · rw [tryParse_refused t hne hw hle hbig hfull] at hparse
      cases hparse
  · rintro ⟨hgap, hroom, hprefix⟩
    have hmask := (clearBeyond_keptBits_iff hle _ _).mpr hprefix
    refine ⟨_, _, ?_, rfl, rfl, fun a => matchIpv6_network hle a t.address,
      (indices_iff t hne hw hle).mpr (.inl hroom), matchIndices_lt hle⟩
    rw [tryParse_filled t hne hw hle hgap, hmask]

theorem parse_address (t : V6Text) :
    tryParseV6Netmask t.text = .ipv6 t.address 128 ∧ ∀ i ∈ v6Indices t.text, i < 8 := by
  constructor
  · have hfull : t.address.clearBeyond 128 = t.address := by
      apply Bytes.Block.eq_of_bytes
      have h := Bytes.clearBeyond_full t.address.wf
      rwa [t.address.length_eq] at h
    rw [tryParse_address, v6Filled, fill_eq t (by decide : prefixWords 128 ≤ 8),
      addressOf_v6Clear _ (t.filled_lt _) (t.length_filled (by decide)),
      show prefixWords 128 = 8 from rfl, filled_eight, show keptBits 128 = 128 from rfl]
    exact congrArg (NetMask.ipv6 · 128) hfull
  · obtain ⟨ws, acc, k, p, hwords, hloop⟩ := v6Loop_text t 128 []
    have hlen : t.entries.length = ws.length + 1 := by rw [← hwords]; simp
    have htop := t.length_entries.2
    rw [append_nil] at hloop
    rw [v6Indices_lt_iff, hloop, v6Loop]
    rintro r hr
    rw [← Option.some.inj hr, V6Parse.reading]
    dsimp only
    omega

end V6Text

end Ircd
