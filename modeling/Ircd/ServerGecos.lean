import Ircd.Text
import Mathlib.Data.List.TakeWhile
import Mathlib.Logic.Function.Iterate

/-!
The description of a server: what `set_server_gecos` makes of the text that a server is
introduced with, and the text it is introduced with to the next one.

A first word with a bracket is taken for an address and dropped, and so is the mark of a
hidden server behind it. The mark is put back for the next server and the address is not:
`gecos_stable_iff` says for which texts the next server, and all that come after it, read
the same.
-/

namespace Ircd

/-- `REALLEN`. -/
def REALLEN : Nat := 50

/-- What a server is known by: the flag that `SetHidden` sets, and `info`. -/
structure ServerGecos where
  hidden : Bool
  info : CStr
  deriving DecidableEq, Repr

/-- The description of a server that gives none. -/
def unknownLocation : CStr := "(Unknown Location)".toList

def hiddenMark : CStr := "(H)".toList

/-- A text up to the blank that is overwritten with a NUL. -/
def cutAt (s : CStr) (p : Option (CStr × CStr)) : CStr := p.elim s Prod.fst

/-- The last lines of `set_server_gecos`: `s` can be `NULL`, or point to the end. -/
def infoOf (s : Option CStr) : CStr :=
  match s with
  | none | some [] => unknownLocation
  | some s => strlcpy s (REALLEN + 1)

/-- The second half of `set_server_gecos`, behind the address. -/
def readMark (s : Option CStr) : ServerGecos :=
  match s with
  | none | some [] => ⟨false, unknownLocation⟩
  | some s =>
    let p := strchr ' ' s
    if cutAt s p = hiddenMark then ⟨true, infoOf (p.map Prod.snd)⟩ else ⟨false, infoOf (some s)⟩

/-- `set_server_gecos`. -/
def setServerGecos (info : CStr) : ServerGecos :=
  if info = [] then ⟨false, unknownLocation⟩
  else
    let p := strchr ' ' info
    readMark (if ']' ∈ cutAt info p then p.map Prod.snd else some info)

/-- What `mr_server`, `ms_server` and `ms_sid` do with the text of an introduction. -/
def introducedWith (text : CStr) : ServerGecos := setServerGecos (strlcpy text (REALLEN + 1))

/-- The text for the next server, from `ms_server`, `ms_sid` and `server_estab`. -/
def ServerGecos.relayed (g : ServerGecos) : CStr :=
  (if g.hidden then "(H) ".toList else []) ++ g.info

def ServerGecos.nextHop (g : ServerGecos) : ServerGecos := introducedWith g.relayed

/-! ### The words of a text -/

def firstWord (s : CStr) : CStr := s.takeWhile (· ≠ ' ')

def behindFirst (s : CStr) : CStr := (s.dropWhile (· ≠ ' ')).tail

theorem strchr_blank (s : CStr) :
    strchr ' ' s = none ∧ firstWord s = s ∧ behindFirst s = [] ∨
      strchr ' ' s = some (firstWord s, behindFirst s) ∧
        s = firstWord s ++ ' ' :: behindFirst s := by
  cases h : strchr ' ' s with
  | none =>
    left
    have hnot : ∀ c ∈ s, decide (c ≠ ' ') = true := by
      intro c hc
      rw [decide_eq_true_eq]
      rintro rfl
      exact strchr_eq_none_iff.mp h hc
    refine ⟨rfl, List.takeWhile_eq_self_iff.mpr hnot, ?_⟩
    rw [behindFirst, List.dropWhile_eq_nil_iff.mpr hnot, List.tail_nil]
  | some pair =>
    right
    obtain ⟨before, after⟩ := pair
    obtain ⟨rfl, hnot⟩ := strchr_eq_some h
    have hbefore : ∀ c ∈ before, decide (c ≠ ' ') = true := by
      intro c hc
      rw [decide_eq_true_eq]
      rintro rfl
      exact hnot hc
    have hfirst : firstWord (before ++ ' ' :: after) = before := by
      rw [firstWord, List.takeWhile_append_of_pos hbefore]
      simp
    have hbehind : behindFirst (before ++ ' ' :: after) = after := by
      rw [behindFirst, List.dropWhile_append_of_pos hbefore]
      simp
    rw [hfirst, hbehind]
    exact ⟨rfl, rfl⟩

theorem cutAt_strchr (s : CStr) : cutAt s (strchr ' ' s) = firstWord s := by
  rcases strchr_blank s with ⟨h, hfirst, -⟩ | ⟨h, -⟩
  · rw [h, hfirst]
    rfl
  · rw [h]
    rfl

theorem infoOf_behind (s : CStr) :
    infoOf ((strchr ' ' s).map Prod.snd) = infoOf (some (behindFirst s)) := by
  rcases strchr_blank s with ⟨h, -, hbehind⟩ | ⟨h, -⟩
  · rw [h, hbehind]
    rfl
  · rw [h]
    rfl

/-- The text without a first word that is taken for an address. -/
def withoutAddress (s : CStr) : CStr := if ']' ∈ firstWord s then behindFirst s else s

theorem infoOf_of_ne_nil {s : CStr} (hne : s ≠ []) : infoOf (some s) = strlcpy s (REALLEN + 1) := by
  cases s with
  | nil => exact absurd rfl hne
  | cons c s => rfl

theorem readMark_some (s : CStr) : readMark (some s) =
    if firstWord s = hiddenMark then ⟨true, infoOf (some (behindFirst s))⟩
    else ⟨false, infoOf (some s)⟩ := by
  cases s with
  | nil => rfl
  | cons c s => simp only [readMark, cutAt_strchr, infoOf_behind]

theorem readMark_behind (s : CStr) :
    readMark ((strchr ' ' s).map Prod.snd) = readMark (some (behindFirst s)) := by
  rcases strchr_blank s with ⟨h, -, hbehind⟩ | ⟨h, -⟩
  · rw [h, hbehind]
    rfl
  · rw [h]
    rfl

theorem setServerGecos_eq (info : CStr) :
    setServerGecos info = readMark (some (withoutAddress info)) := by
  unfold setServerGecos withoutAddress
  split
  · rename_i hnil
    rw [hnil]
    rfl
  · dsimp only
    rw [cutAt_strchr]
    split
    · exact readMark_behind info
    · rfl

theorem strlcpy_of_fits {s : CStr} (h : s.length ≤ REALLEN) : strlcpy s (REALLEN + 1) = s :=
  List.take_of_length_le h

theorem infoOf_length (s : Option CStr) : (infoOf s).length ≤ REALLEN := by
  unfold infoOf
  split
  · decide
  · decide
  · exact List.length_take_le ..

theorem infoOf_infoOf (s : Option CStr) : infoOf (some (infoOf s)) = infoOf s := by
  have hne : infoOf s ≠ [] := by
    unfold infoOf
    split
    · decide
    · decide
    · rename_i s hnil
      cases s with
      | nil => exact absurd rfl hnil
      | cons c s => exact List.cons_ne_nil _ _
  rw [infoOf_of_ne_nil hne, strlcpy_of_fits (infoOf_length s)]

/-! ### One hop -/

/-- The text is read with its first word dropped, and what is left starts with another word
that has a bracket. -/
def DropsTwice (text : CStr) : Prop :=
  ']' ∈ firstWord (strlcpy text (REALLEN + 1)) ∧
    ']' ∈ firstWord (behindFirst (strlcpy text (REALLEN + 1)))

instance (text : CStr) : Decidable (DropsTwice text) :=
  inferInstanceAs (Decidable (_ ∧ _))

theorem length_behindFirst (s : CStr) :
    (behindFirst s).length + (firstWord s).length + 1 ≤ s.length ∨ behindFirst s = [] := by
  rcases strchr_blank s with ⟨-, -, hbehind⟩ | ⟨-, hs⟩
  · exact Or.inr hbehind
  · have hlength := congrArg List.length hs
    rw [List.length_append, List.length_cons] at hlength
    omega

theorem infoOf_eq {s : CStr} (h : s.length ≤ REALLEN) :
    infoOf (some s) = if s = [] then unknownLocation else s := by
  split
  · rename_i hnil
    rw [hnil]
    rfl
  · rename_i hne
    rw [infoOf_of_ne_nil hne, strlcpy_of_fits h]

theorem length_withoutAddress_le (s : CStr) : (withoutAddress s).length ≤ s.length := by
  unfold withoutAddress
  split
  · rcases length_behindFirst s with h | h
    · omega
    · rw [h]
      exact Nat.zero_le _
  · exact Nat.le_refl _

theorem firstWord_mark (info : CStr) : firstWord ("(H) ".toList ++ info) = hiddenMark ∧
    behindFirst ("(H) ".toList ++ info) = info := by
  constructor
  · rfl
  · rfl

theorem withoutAddress_of_notMem {s : CStr} (h : ']' ∉ firstWord s) : withoutAddress s = s :=
  if_neg h

theorem nextHop_hidden {info : CStr} (h : info.length + 4 ≤ REALLEN)
    (hstored : infoOf (some info) = info) :
    ServerGecos.nextHop ⟨true, info⟩ = ⟨true, info⟩ := by
  have hword := (firstWord_mark info).1
  have hnot : ']' ∉ firstWord ("(H) ".toList ++ info) := by
    rw [hword]
    decide
  have hfits : ("(H) ".toList ++ info).length ≤ REALLEN := by
    rw [List.length_append]
    exact (Nat.add_comm ..).trans_le h
  change setServerGecos (strlcpy ("(H) ".toList ++ info) (REALLEN + 1)) = _
  rw [strlcpy_of_fits hfits, setServerGecos_eq, withoutAddress_of_notMem hnot, readMark_some,
    if_pos hword, (firstWord_mark info).2, hstored]

theorem nextHop_visible {info : CStr} (hstored : infoOf (some info) = info)
    (hmark : firstWord info ≠ hiddenMark) (hnot : ']' ∉ firstWord info) :
    ServerGecos.nextHop ⟨false, info⟩ = ⟨false, info⟩ := by
  have hfits : info.length ≤ REALLEN := hstored ▸ infoOf_length (some info)
  change setServerGecos (strlcpy info (REALLEN + 1)) = _
  rw [strlcpy_of_fits hfits, setServerGecos_eq, withoutAddress_of_notMem hnot, readMark_some,
    if_neg hmark, hstored]

theorem nextHop_address {info : CStr} (hstored : infoOf (some info) = info)
    (haddress : ']' ∈ firstWord info) :
    ServerGecos.nextHop ⟨false, info⟩ ≠ ⟨false, info⟩ := by
  have hfits : info.length ≤ REALLEN := hstored ▸ infoOf_length (some info)
  have hnext : ServerGecos.nextHop ⟨false, info⟩ = readMark (some (behindFirst info)) := by
    change setServerGecos (strlcpy info (REALLEN + 1)) = _
    rw [strlcpy_of_fits hfits, setServerGecos_eq, withoutAddress, if_pos haddress]
  rw [hnext, readMark_some]
  split
  · intro heq
    cases heq
  · intro heq
    have hinfo : infoOf (some (behindFirst info)) = info := congrArg ServerGecos.info heq
    by_cases hnil : behindFirst info = []
    · -- then the description is the one of servers that give none
      rw [hnil] at hinfo
      rw [← hinfo] at haddress
      exact absurd haddress (by decide)
    · rcases length_behindFirst info with hless | hnone
      · have hle : (behindFirst info).length ≤ REALLEN := by omega
        rw [infoOf_eq hle, if_neg hnil] at hinfo
        rw [hinfo] at hless
        omega
      · exact hnil hnone

/-! ### Any number of hops -/

theorem mem_withoutAddress_iff (t : CStr) : ']' ∈ firstWord (withoutAddress t) ↔
    ']' ∈ firstWord t ∧ ']' ∈ firstWord (behindFirst t) := by
  unfold withoutAddress
  split
  · rename_i h
    exact (and_iff_right h).symm
  · rename_i h
    exact iff_of_false h fun hboth => h hboth.1

theorem nextHop_eq_iff (text : CStr) :
    (introducedWith text).nextHop = introducedWith text ↔ ¬DropsTwice text := by
  unfold introducedWith DropsTwice
  have hfits : (strlcpy text (REALLEN + 1)).length ≤ REALLEN := List.length_take_le ..
  generalize strlcpy text (REALLEN + 1) = t at hfits
  have hle : (withoutAddress t).length ≤ REALLEN := (length_withoutAddress_le t).trans hfits
  rw [setServerGecos_eq, readMark_some, ← mem_withoutAddress_iff]
  generalize withoutAddress t = w at hle
  split
  · rename_i hmark
    have hnot : ']' ∉ firstWord w := by
      rw [hmark]
      decide
    have hroom : (infoOf (some (behindFirst w))).length + 4 ≤ REALLEN := by
      rcases length_behindFirst w with h | hnil
      · -- the mark and its blank leave the rest four characters less
        rw [hmark] at h
        change (behindFirst w).length + 3 + 1 ≤ w.length at h
        have hrest : (behindFirst w).length ≤ REALLEN := by omega
        rw [infoOf_eq hrest]
        split
        · decide
        · omega
      · rw [hnil]
        decide
    exact iff_of_true (nextHop_hidden hroom (infoOf_infoOf _)) hnot
  · rename_i hmark
    rw [infoOf_eq hle]
    split
    · rename_i hnil
      rw [hnil]
      exact iff_of_true rfl (by decide)
    · rename_i hne
      have hstored : infoOf (some w) = w := by rw [infoOf_eq hle, if_neg hne]
      constructor
      · intro hsame haddress
        exact nextHop_address hstored haddress hsame
      · exact nextHop_visible hstored hmark

/-- A hidden server that the third server does not know to be hidden. -/
def twiceBracketed : CStr := "[a] [b] (H) x".toList

theorem gecos_changes : introducedWith twiceBracketed = ⟨false, "[b] (H) x".toList⟩ ∧
    (introducedWith twiceBracketed).nextHop = ⟨true, "x".toList⟩ ∧
    ¬∀ hops, ServerGecos.nextHop^[hops] (introducedWith twiceBracketed) =
      introducedWith twiceBracketed := by
  refine ⟨by decide, by decide, fun hall => ?_⟩
  have hone : (introducedWith twiceBracketed).nextHop = introducedWith twiceBracketed := hall 1
  exact absurd hone (by decide)

/-- All servers behind any number of hops know a server by the same description exactly if
the text of its introduction is not one from which a second word is dropped. -/
theorem gecos_stable_iff (text : CStr) :
    (∀ hops, ServerGecos.nextHop^[hops] (introducedWith text) = introducedWith text) ↔
      ¬DropsTwice text := by
  rw [← nextHop_eq_iff]
  constructor
  · intro hall
    exact hall 1
  · exact Function.iterate_fixed

end Ircd
