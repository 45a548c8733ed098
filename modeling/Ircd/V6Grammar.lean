import Ircd.V4Grammar

/-!
How `try_parse_v6_netmask` reads an IPv6 address.

The words of the groups come to stand one behind the other in `d`, where an empty side of
`::` counts for one word of zeros (`v6Loop_text`). What the function makes of them with a
prefix length is the subject of the module that follows.
-/

namespace Ircd

open List

/-! ### Addresses as texts -/

/-- The value of hexadecimal digits behind those that were read. -/
def readHex : Nat → CStr → Nat
  | acc, [] => acc
  | acc, c :: s => readHex (acc * 16 + (hexVal c).getD 0) s

/-- A group of an address: one to four hexadecimal digits. -/
def IsGroup (g : CStr) : Prop := g ≠ [] ∧ g.length ≤ 4 ∧ ∀ c ∈ g, (hexVal c).isSome = true

instance (g : CStr) : Decidable (IsGroup g) :=
  @instDecidableAnd _ _ _
    (@instDecidableAnd _ _ _ (List.decidableBAll (fun c => (hexVal c).isSome = true) g))

/-- The text of an address: eight groups, or at most seven, with `::` in place of those
that are left out. -/
inductive V6Text where
  | full (groups : List CStr) (valid : ∀ g ∈ groups, IsGroup g) (eight : groups.length = 8)
  | gap (front back : List CStr) (valid : ∀ g ∈ front ++ back, IsGroup g)
      (short : front.length + back.length ≤ 7)

namespace V6Text

def text : V6Text → CStr
  | full groups _ _ => [':'].intercalate groups
  | gap front back _ _ => [':'].intercalate front ++ ':' :: ':' :: [':'].intercalate back

def words : V6Text → List Nat
  | full groups _ _ => groups.map (readHex 0)
  | gap front back _ _ =>
    front.map (readHex 0) ++ List.replicate (8 - front.length - back.length) 0 ++
      back.map (readHex 0)

end V6Text

def addressOf (words : List Nat) : In6Addr := Bytes.Block.ofList 16 (words.flatMap groupBytes)

def V6Text.address (t : V6Text) : In6Addr := addressOf t.words

/-! ### The indices -/

/-- The indices into `d` in the loop of `try_parse_v6_netmask` and in the line behind it. -/
def v6Touches : V6Parse → Option Char → CStr → List Nat
  | st, _, [] => [st.dp]
  | st, prev, c :: p =>
    match hexVal c with
    | some v =>
      if st.nyble = 0 then []
      else
        st.dp :: v6Touches
          { st with
            d := st.d.modify st.dp fun w => w ||| v <<< (4 * (st.nyble - 1))
            nyble := st.nyble - 1 }
          (some c) p
    | none =>
      if c = ':' then
        if prev = some ':' then
          match st.finsert with
          | some _ => []
          | none => v6Touches { st with finsert := some st.dp } (some c) p
        else if 8 ≤ st.dp + 1 then [st.dp]
        else st.dp :: v6Touches { st.shift with nyble := 4, dp := st.dp + 1 } (some c) p
      else if c = '*' then
        if st.finsert.isSome ∨ p ≠ [] ∨ st.dp = 0 ∨ prev ≠ some ':' then []
        else v6Touches st (some c) p
      else if c = '/' then
        let (v, after) := strtoul p
        let bits := toInt32 v
        if bits < 0 ∨ after ≠ [] then [st.dp]
        else if bits > ((st.dp + 1) * 4 : Nat) ∧ ¬ (st.finsert.isSome ∧ bits ≤ 128) then [st.dp]
        else [st.dp, st.dp + 1]
      else []

def v6Start : V6Parse := ⟨List.replicate 8 0, 0, 4, none⟩

theorem v6Touches_lt_iff {st : V6Parse} {bits : Nat} {prev : Option Char} {text : CStr}
    (hle : st.dp ≤ 7) : (∀ i ∈ v6Touches st prev text, i < 8) ↔
      ∀ r, v6Loop st bits prev text = some r → r.1.dp < 8 := by
  induction text generalizing st bits prev with
  | nil =>
    simp only [v6Touches, v6Loop, mem_singleton, forall_eq, Option.some.injEq]
    constructor
    · rintro h r rfl
      exact h
    · exact fun h => h _ rfl
  | cons c p ih =>
    unfold v6Touches v6Loop
    cases hexVal c with
    | some v =>
      dsimp only
      by_cases hfull : st.nyble = 0
      · simp [hfull]
      · rw [if_neg hfull, if_neg hfull, forall_mem_cons, and_iff_right (by omega)]
        exact ih hle
    | none =>
      dsimp only
      by_cases hcolon : c = ':'
      · rw [if_pos hcolon, if_pos hcolon]
        by_cases hprev : prev = some ':'
        · rw [if_pos hprev, if_pos hprev]
          cases st.finsert with
          | some f => simp
          | none => exact ih hle
        · rw [if_neg hprev, if_neg hprev]
          by_cases hlast : 8 ≤ st.dp + 1
          · simp only [if_pos hlast, mem_singleton, forall_eq, reduceCtorEq, false_imp_iff,
              implies_true, iff_true]
            omega
          · rw [if_neg hlast, if_neg hlast, forall_mem_cons, and_iff_right (by omega)]
            apply ih
            dsimp only
            omega
      · rw [if_neg hcolon, if_neg hcolon]
        by_cases hstar : c = '*'
        · rw [if_pos hstar, if_pos hstar]
          split_ifs
          · simp
          · exact ih hle
        · rw [if_neg hstar, if_neg hstar]
          by_cases hslash : c = '/'
          · rw [if_pos hslash, if_pos hslash]
            by_cases hread : toInt32 (strtoul p).1 < 0 ∨ (strtoul p).2 ≠ []
            · simp only [if_pos hread, mem_singleton, forall_eq, reduceCtorEq,
                false_imp_iff, implies_true, iff_true]
              omega
            · by_cases hbig : toInt32 (strtoul p).1 > ((st.dp + 1) * 4 : Nat) ∧
                  ¬ (st.finsert.isSome = true ∧ toInt32 (strtoul p).1 ≤ 128)
              · have hbig' : toInt32 (strtoul p).1 > ((st.dp + 1) * 4 : Nat) ∧
                    ¬ (st.shift.finsert.isSome = true ∧ toInt32 (strtoul p).1 ≤ 128) := hbig
                simp only [if_neg hread, if_pos hbig, if_pos hbig', mem_singleton,
                  forall_eq, reduceCtorEq, false_imp_iff, implies_true, iff_true]
                omega
              · have hbig' : ¬ (toInt32 (strtoul p).1 > ((st.dp + 1) * 4 : Nat) ∧
                    ¬ (st.shift.finsert.isSome = true ∧ toInt32 (strtoul p).1 ≤ 128)) := hbig
                simp only [if_neg hread, if_neg hbig, if_neg hbig', forall_mem_cons,
                  Option.some.injEq]
                constructor
                · rintro ⟨-, h, -⟩ r rfl
                  exact h
                · exact fun h => ⟨by omega, h _ rfl, by simp⟩
          · simp [hslash]

/-- The indices into `d` in the loop that fills in the gap. -/
def v6FillTouches (finsert : Option Nat) : Nat → Nat → Int → List Nat
  | 0, _, _ => []
  | room + 1, nyble, deficit =>
    if finsert = some nyble ∧ deficit ≠ 0 then v6FillTouches finsert room nyble (deficit - 1)
    else nyble :: v6FillTouches finsert room (nyble + 1) deficit

/-- The index into `dc` of the word in which the prefix ends. -/
def v6ClearTouches (bits : Nat) : List Nat :=
  if bits < 128 ∧ bits % 16 ≠ 0 then [bits / 16] else []

/-- The indices into `d` and `dc` in `try_parse_v6_netmask`, without those that only count
from 0 to 7. -/
def v6Indices (text : CStr) : List Nat :=
  v6Touches v6Start none text ++
    match v6Loop v6Start 128 none text with
    | none => []
    | some (st, bits, atEnd) =>
      let dp := if atEnd then st.dp + 1 else st.dp
      let bits := if st.finsert = none ∧ bits = 0 then dp * 16 else bits
      let deficit : Int := (bits / 16 + if bits % 16 = 0 then 0 else 1 : Nat) - dp
      v6FillTouches st.finsert 8 0 deficit ++ v6ClearTouches bits

theorem v6FillTouches_lt {f : Option Nat} {room nyble : Nat} {D : Int} :
    ∀ i ∈ v6FillTouches f room nyble D, i < nyble + room := by
  induction room generalizing nyble D with
  | zero => simp [v6FillTouches]
  | succ room ih =>
    intro i hi
    unfold v6FillTouches at hi
    split_ifs at hi
    · exact (ih i hi).trans (by omega)
    · rcases List.mem_cons.mp hi with rfl | hrest
      · omega
      · have hlt := ih i hrest
        omega

theorem v6ClearTouches_lt {bits : Nat} : ∀ i ∈ v6ClearTouches bits, i < 8 := by
  intro i hi
  unfold v6ClearTouches at hi
  split_ifs at hi
  · rw [List.mem_singleton.mp hi]
    omega
  · cases hi

theorem v6Indices_lt_iff {text : CStr} : (∀ i ∈ v6Indices text, i < 8) ↔
    ∀ r, v6Loop v6Start 128 none text = some r → r.1.dp < 8 := by
  rw [← v6Touches_lt_iff (by simp [v6Start]), v6Indices]
  constructor
  · exact fun h i hi => h i (mem_append_left _ hi)
  · intro h i hi
    rcases List.mem_append.mp hi with hloop | hrest
    · exact h i hloop
    · split at hrest
      · cases hrest
      · rcases List.mem_append.mp hrest with hfill | hclear
        · simpa using v6FillTouches_lt i hfill
        · exact v6ClearTouches_lt i hclear

/-! ### Reading groups -/

/-- The variables behind the words `ws`, with `acc` read of the next one and room for `k`
more digits of it. -/
def V6Parse.reading (ws : List Nat) (acc k : Nat) (f : Option Nat) : V6Parse :=
  ⟨ws ++ acc <<< (4 * k) :: List.replicate (7 - ws.length) 0, ws.length, k, f⟩

theorem v6Start_eq : v6Start = .reading [] 0 4 none := rfl

theorem hexVal_lt {c : Char} {v : Nat} (h : hexVal c = some v) : v < 16 := by
  unfold hexVal at h
  split_ifs at h with hdigit hlower hupper
  · simp only [isDigit, Bool.and_eq_true, decide_eq_true_eq] at hdigit
    have hle : c.toNat ≤ 57 := hdigit.2
    rw [← Option.some.inj h, digitVal]
    have hzero : '0'.toNat = 48 := rfl
    omega
  · have hle : c.toNat ≤ 102 := hlower.2
    rw [← Option.some.inj h]
    have ha : 'a'.toNat = 97 := rfl
    omega
  · have hle : c.toNat ≤ 70 := hupper.2
    rw [← Option.some.inj h]
    have ha : 'A'.toNat = 65 := rfl
    omega

theorem modify_length_append (l : List Nat) (x : Nat) (r : List Nat) (g : Nat → Nat) :
    (l ++ x :: r).modify l.length g = l ++ g x :: r := by
  induction l with
  | nil => rfl
  | cons y l ih =>
    rw [cons_append, length_cons, modify_succ_cons, ih]
    rfl

theorem shift_or_digit {acc v k : Nat} (hv : v < 16) :
    acc <<< (4 * (k + 1)) ||| v <<< (4 * k) = (acc * 16 + v) <<< (4 * k) := by
  have hacc : acc <<< (4 * (k + 1)) = (acc <<< 4) <<< (4 * k) := by
    rw [← Nat.shiftLeft_add]
    congr 1
    omega
  rw [hacc, ← Nat.shiftLeft_or_distrib, ← Nat.shiftLeft_add_eq_or_of_lt (by omega),
    Nat.shiftLeft_eq acc]

section Reading

variable {ws : List Nat} {acc k bits : Nat} {f : Option Nat} {prev : Option Char}
  {g rest : CStr}

theorem v6Loop_digits (hg : ∀ c ∈ g, (hexVal c).isSome = true) (hlen : g.length ≤ k) :
    v6Loop (.reading ws acc k f) bits prev (g ++ rest) =
      v6Loop (.reading ws (readHex acc g) (k - g.length) f) bits (g.getLast?.or prev) rest := by
  induction g generalizing acc k prev with
  | nil => rfl
  | cons c g ih =>
    obtain ⟨v, hv⟩ := Option.isSome_iff_exists.mp (hg c mem_cons_self)
    obtain ⟨j, rfl⟩ : ∃ j, k = j + 1 := ⟨k - 1, by simp at hlen; omega⟩
    have hnext : v6Loop (.reading ws acc (j + 1) f) bits prev (c :: (g ++ rest)) =
        v6Loop (.reading ws (acc * 16 + v) j f) bits (some c) (g ++ rest) := by
      rw [v6Loop]
      simp only [hv]
      rw [if_neg (by simp [V6Parse.reading])]
      simp only [V6Parse.reading, modify_length_append, Nat.add_sub_cancel,
        shift_or_digit (hexVal_lt hv)]
    rw [cons_append, hnext, ih (fun d hd => hg d (mem_cons_of_mem c hd))
      (by simpa using hlen), readHex, hv, last_cons, length_cons, Nat.add_sub_add_right]
    rfl

theorem hexVal_colon : hexVal ':' = none := rfl

theorem shift_reading : (V6Parse.reading ws acc k f).shift =
    { V6Parse.reading ws acc k f with d := ws ++ acc :: List.replicate (7 - ws.length) 0 } := by
  unfold V6Parse.shift V6Parse.reading
  dsimp only
  rw [modify_length_append, Nat.shiftLeft_shiftRight]

theorem v6Loop_colon (hprev : prev ≠ some ':') (hlt : ws.length < 7) :
    v6Loop (.reading ws acc k f) bits prev (':' :: rest) =
      v6Loop (.reading (ws ++ [acc]) 0 4 f) bits (some ':') rest := by
  rw [v6Loop]
  simp only [hexVal_colon, if_pos, if_neg hprev]
  have hroom : ¬ 8 ≤ (V6Parse.reading ws acc k f).dp + 1 := by
    have hdp : (V6Parse.reading ws acc k f).dp = ws.length := rfl
    omega
  obtain ⟨m, hm⟩ : ∃ m, 7 - ws.length = m + 1 := ⟨6 - ws.length, by omega⟩
  have hrest : 7 - (ws.length + 1) = m := by omega
  rw [if_neg hroom, shift_reading]
  simp only [V6Parse.reading, hm, hrest, replicate_succ, append_assoc,
    singleton_append, length_append, length_singleton, Nat.zero_shiftLeft]

theorem v6Loop_gap :
    v6Loop (.reading ws acc k none) bits (some ':') (':' :: rest) =
      v6Loop (.reading ws acc k (some ws.length)) bits (some ':') rest := by
  rw [v6Loop]
  simp only [hexVal_colon, if_pos]
  rfl

/-- The words that one side of `::` takes in `d`: an empty side takes one. -/
def sideWords (gs : List CStr) : List Nat := if gs = [] then [0] else gs.map (readHex 0)

theorem sideWords_ne_nil (gs : List CStr) : sideWords gs ≠ [] := by
  unfold sideWords
  split_ifs with h
  · simp
  · simpa using h

theorem length_sideWords (gs : List CStr) : (sideWords gs).length = max 1 gs.length := by
  unfold sideWords
  split_ifs with h
  · simp [h]
  · have hpos := length_pos_of_ne_nil h
    rw [length_map]
    omega

variable (ws bits f prev rest) in
theorem v6Loop_groups {gs : List CStr} (hgs : ∀ g ∈ gs, IsGroup g) (hne : gs ≠ [])
    (hroom : ws.length + gs.length ≤ 8) :
    ∃ ws' acc' k' c, (hexVal c).isSome = true ∧ ws' ++ [acc'] = ws ++ gs.map (readHex 0) ∧
      v6Loop (.reading ws 0 4 f) bits prev ([':'].intercalate gs ++ rest) =
        v6Loop (.reading ws' acc' k' f) bits (some c) rest := by
  induction gs generalizing ws prev with
  | nil => exact absurd rfl hne
  | cons g gs ih =>
    obtain ⟨hgne, hglen, hhex⟩ := hgs g mem_cons_self
    have hlast : g.getLast? = some (g.getLast hgne) := getLast?_eq_some_getLast hgne
    have hchar : (hexVal (g.getLast hgne)).isSome = true := hhex _ (getLast_mem hgne)
    cases gs with
    | nil =>
      refine ⟨ws, readHex 0 g, 4 - g.length, g.getLast hgne, hchar, rfl, ?_⟩
      rw [intercalate_singleton, v6Loop_digits hhex hglen, hlast, Option.some_or]
    | cons h hs =>
      have hcolon : some (g.getLast hgne) ≠ some ':' := by
        intro heq
        rw [Option.some.inj heq, hexVal_colon] at hchar
        cases hchar
      have hlen : ws.length + ((h :: hs).length + 1) ≤ 8 := by simpa using hroom
      obtain ⟨ws', acc', k', c, hc, hwords, hloop⟩ :=
        ih (ws ++ [readHex 0 g]) (some ':')
          (fun x hx => hgs x (mem_cons_of_mem g hx)) (by simp)
          (by simp only [length_append, length_singleton]; omega)
      refine ⟨ws', acc', k', c, hc, by rw [hwords]; simp, ?_⟩
      rw [intercalate_cons_cons, append_assoc, append_assoc,
        v6Loop_digits hhex hglen, hlast, Option.some_or, singleton_append,
        v6Loop_colon hcolon (by simp only [length_cons] at hlen; omega), hloop]

variable (ws bits f prev rest) in
theorem v6Loop_side {gs : List CStr} (hgs : ∀ g ∈ gs, IsGroup g)
    (hroom : ws.length + (sideWords gs).length ≤ 8) :
    ∃ ws' acc' k' p, (p = prev ∨ ∃ c, p = some c ∧ (hexVal c).isSome = true) ∧
      ws' ++ [acc'] = ws ++ sideWords gs ∧
      v6Loop (.reading ws 0 4 f) bits prev ([':'].intercalate gs ++ rest) =
        v6Loop (.reading ws' acc' k' f) bits p rest := by
  by_cases hne : gs = []
  · subst hne
    exact ⟨ws, 0, 4, prev, .inl rfl, rfl, rfl⟩
  · rw [length_sideWords] at hroom
    obtain ⟨ws', acc', k', c, hc, hwords, hloop⟩ :=
      v6Loop_groups ws bits f prev rest hgs hne (by omega)
    refine ⟨ws', acc', k', some c, .inr ⟨c, rfl, hc⟩, ?_, hloop⟩
    rw [hwords, sideWords, if_neg hne]

end Reading

/-! ### Reading an address -/

namespace V6Text

/-- The words that come to stand in `d`. -/
def entries : V6Text → List Nat
  | full groups _ _ => groups.map (readHex 0)
  | gap front back _ _ => sideWords front ++ sideWords back

def place : V6Text → Option Nat
  | full _ _ _ => none
  | gap front _ _ _ => some (sideWords front).length

theorem length_entries (t : V6Text) : 2 ≤ t.entries.length ∧ t.entries.length ≤ 8 := by
  cases t with
  | full groups valid eight =>
    rw [entries, length_map]
    omega
  | gap front back valid short =>
    rw [entries, length_append, length_sideWords, length_sideWords]
    omega

end V6Text

theorem v6Loop_text (t : V6Text) (bits : Nat) (rest : CStr) :
    ∃ ws acc k p, ws ++ [acc] = t.entries ∧
      v6Loop v6Start bits none (t.text ++ rest) =
        v6Loop (.reading ws acc k t.place) bits p rest := by
  rw [v6Start_eq]
  cases t with
  | full groups valid eight =>
    obtain ⟨ws, acc, k, c, -, hwords, hloop⟩ := v6Loop_groups [] bits none none rest valid
      (by rintro rfl; simp at eight) (by rw [eight, length_nil])
    exact ⟨ws, acc, k, some c, hwords, hloop⟩
  | gap front back valid short =>
    have hfront : ∀ g ∈ front, IsGroup g := fun g hg => valid g (mem_append_left _ hg)
    have hback : ∀ g ∈ back, IsGroup g := fun g hg => valid g (mem_append_right _ hg)
    have hflen := length_sideWords front
    have hblen := length_sideWords back
    obtain ⟨ws, acc, k, p, hp, hwords, hloop⟩ := v6Loop_side [] bits none none
      (':' :: ':' :: ([':'].intercalate back ++ rest)) hfront (by rw [length_nil]; omega)
    have hprev : p ≠ some ':' := by
      rcases hp with rfl | ⟨c, rfl, hc⟩
      · simp
      · intro heq
        rw [Option.some.inj heq, hexVal_colon] at hc
        cases hc
    rw [nil_append] at hwords
    have hlen : ws.length + 1 = (sideWords front).length := by rw [← hwords]; simp
    obtain ⟨ws', acc', k', p', -, hwords', hloop'⟩ := v6Loop_side (sideWords front) bits
      (some (sideWords front).length) (some ':') rest hback (by omega)
    refine ⟨ws', acc', k', p', hwords', ?_⟩
    simp only [V6Text.text, append_assoc, cons_append, V6Text.place]
    rw [hloop, v6Loop_colon hprev (by omega), hwords, v6Loop_gap, hloop']

end Ircd
