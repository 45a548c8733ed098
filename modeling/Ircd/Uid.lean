import Ircd.Text
import Mathlib.Data.List.Nodup
import Mathlib.Data.Nat.ModEq
import Mathlib.Tactic.Ring

/-!
The generator of user ids of `s_user.c`: `init_uid`, `uid_get` and `add_one_to_uid`.

`uidPart` writes a number in the digits of an id, the first of them a letter. A call goes from a
number to the next one (`addOneToUid_uidPart`), so that the ids repeat only behind all of them
(`uids_never_repeat`).
-/

namespace Ircd

open List

namespace Uid

/-- `IRC_MAXSID`. -/
def IRC_MAXSID : Nat := 3

/-- `TOTALSIDUID`. -/
def TOTALSIDUID : Nat := 9

/-- `new_uid` after `init_uid`, with `ServerInfo.sid`. -/
def initUid (sid : Option CStr) : CStr :=
  let given := (sid.getD []).take IRC_MAXSID
  given ++ List.replicate (IRC_MAXSID - given.length) 'A' ++ "AAAAA@".toList

def succChar (c : Char) : Char := Char.ofNat (c.toNat + 1)

/-- `add_one_to_uid`. The carry from index 0 would leave the array; it does not get there. -/
def addOneToUid (i : Nat) (uid : CStr) : CStr :=
  if i ≠ IRC_MAXSID then
    if uid.getD i 'A' = 'Z' then uid.set i '0'
    else if uid.getD i 'A' = '9' then
      match i with
      | 0 => uid.set 0 'A'
      | j + 1 => addOneToUid j (uid.set (j + 1) 'A')
    else uid.set i (succChar (uid.getD i 'A'))
  else if uid.getD i 'A' = 'Z' then uid.take IRC_MAXSID ++ "AAAAAA".toList
  else uid.set i (succChar (uid.getD i 'A'))

/-- `uid_get`. -/
def uidGet (uid : CStr) : CStr := addOneToUid (TOTALSIDUID - 1) uid

/-- The ids that are produced, from the first one on. -/
def uids (sid : Option CStr) (n : Nat) : CStr := uidGet^[n + 1] (initUid sid)

/-- An id: the part of the server, a letter, and five letters or digits. -/
structure IsUid (server uid : CStr) : Prop where
  parts : ∃ first rest, uid = server ++ first :: rest ∧ ('A' ≤ first ∧ first ≤ 'Z') ∧
    rest.length = 5 ∧ ∀ c ∈ rest, ('A' ≤ c ∧ c ≤ 'Z') ∨ ('0' ≤ c ∧ c ≤ '9')

def serverPart (sid : Option CStr) : CStr := (initUid sid).take IRC_MAXSID

/-! ### Numbers -/

def uidDigit (d : Nat) : Char := "ABCDEFGHIJKLMNOPQRSTUVWXYZ0123456789".toList.getD d 'A'

/-- The first letter and `j` digits behind it, of a number. -/
def uidPart : Nat → Nat → CStr
  | 0, n => [uidDigit (n % 26)]
  | j + 1, n => uidPart j (n / 36) ++ [uidDigit (n % 36)]

theorem length_uidPart (j n : Nat) : (uidPart j n).length = j + 1 := by
  induction j generalizing n with
  | zero => rfl
  | succ j ih => rw [uidPart, length_append, ih, length_singleton]

theorem uidDigit_succ : ∀ d < 36, (d = 25 ∧ uidDigit d = 'Z') ∨ (d = 35 ∧ uidDigit d = '9') ∨
    (d ≠ 25 ∧ d ≠ 35 ∧ uidDigit d ≠ 'Z' ∧ uidDigit d ≠ '9' ∧
      succChar (uidDigit d) = uidDigit (d + 1)) := by
  decide +kernel

theorem uidDigit_inj {a b : Nat} (ha : a < 36) (hb : b < 36) (h : uidDigit a = uidDigit b) :
    a = b := by
  have hall : ∀ a < 36, ∀ b < 36, uidDigit a = uidDigit b → a = b := by decide +kernel
  exact hall a ha b hb h

theorem getD_behind {l r : CStr} {i : Nat} (hl : l.length = i) (c : Char) :
    (l ++ c :: r).getD i 'A' = c := by
  rw [getD_eq_getElem?_getD, getElem?_append_right (Nat.le_of_eq hl), hl, Nat.sub_self]
  rfl

theorem set_behind {l r : CStr} {i : Nat} (hl : l.length = i) (c d : Char) :
    (l ++ c :: r).set i d = l ++ d :: r := by
  rw [set_append_right _ _ (Nat.le_of_eq hl), hl, Nat.sub_self]
  rfl

theorem addOneToUid_uidPart {server : CStr} (hserver : server.length = IRC_MAXSID) {j : Nat}
    (hj : j ≤ 5) (n : Nat) :
    addOneToUid (IRC_MAXSID + j) (server ++ uidPart j n ++ List.replicate (5 - j) 'A') =
      server ++ uidPart j (n + 1) ++ List.replicate (5 - j) 'A' := by
  induction j generalizing n with
  | zero =>
    have htext : server ++ uidPart 0 n ++ List.replicate 5 'A' =
        server ++ uidDigit (n % 26) :: List.replicate 5 'A' := append_assoc ..
    have hlt : n % 26 < 26 := Nat.mod_lt n (by decide)
    rw [Nat.add_zero, Nat.sub_zero, htext, addOneToUid.eq_def, if_neg (not_not.mpr rfl),
      getD_behind hserver, append_assoc]
    rcases uidDigit_succ (n % 26) (by omega) with ⟨hd, hz⟩ | ⟨hd, -⟩ | ⟨hd, -, hz, -, hsucc⟩
    · rw [if_pos hz, take_left' hserver]
      have hnext : (n + 1) % 26 = 0 := by omega
      rw [uidPart, hnext]
      rfl
    · omega
    · have hnext : (n + 1) % 26 = n % 26 + 1 := by omega
      rw [if_neg hz, set_behind hserver, hsucc, uidPart, hnext]
      rfl
  | succ j ih =>
    have hlength : (server ++ uidPart j (n / 36)).length = IRC_MAXSID + (j + 1) := by
      rw [length_append, hserver, length_uidPart]
    have htext : ∀ m, server ++ uidPart (j + 1) m ++ List.replicate (5 - (j + 1)) 'A' =
        server ++ uidPart j (m / 36) ++
          uidDigit (m % 36) :: List.replicate (5 - (j + 1)) 'A' := by
      intro m
      rw [uidPart, append_assoc, append_assoc, append_assoc]
      rfl
    have hne : IRC_MAXSID + (j + 1) ≠ IRC_MAXSID := by omega
    have hlt : n % 36 < 36 := Nat.mod_lt n (by decide)
    rw [htext, htext, addOneToUid.eq_def, if_pos hne, getD_behind hlength]
    rcases uidDigit_succ (n % 36) hlt with ⟨hd, hz⟩ | ⟨hd, hnine⟩ | ⟨hd, hd', hz, hnine, hsucc⟩
    · have hmod : (n + 1) % 36 = 26 := by omega
      have hdiv : (n + 1) / 36 = n / 36 := by omega
      rw [if_pos hz, set_behind hlength, hmod, hdiv]
      rfl
    · -- the carry leaves an `A`
      have hmod : (n + 1) % 36 = 0 := by omega
      have hdiv : (n + 1) / 36 = n / 36 + 1 := by omega
      have hrest : 'A' :: List.replicate (5 - (j + 1)) 'A' = List.replicate (5 - j) 'A' := by
        rw [← replicate_succ]
        congr 1
        omega
      have hcarry := ih (by omega) (n / 36)
      rw [← hrest] at hcarry
      have hnot : ¬uidDigit (n % 36) = 'Z' := by rw [hnine]; decide
      rw [if_neg hnot, if_pos hnine]
      change addOneToUid (IRC_MAXSID + j) (List.set _ (IRC_MAXSID + (j + 1)) 'A') = _
      rw [set_behind hlength, hmod, hdiv]
      exact hcarry
    · have hmod : (n + 1) % 36 = n % 36 + 1 := by omega
      have hdiv : (n + 1) / 36 = n / 36 := by omega
      rw [if_neg hz, if_neg hnine, set_behind hlength, hsucc, hmod, hdiv]

theorem length_serverPart (sid : Option CStr) : (serverPart sid).length = IRC_MAXSID := by
  unfold serverPart initUid
  simp only [length_take, length_append, length_replicate]
  change min 3 (min 3 _ + (3 - min 3 _) + 6) = 3
  omega

theorem initUid_eq (sid : Option CStr) : initUid sid = serverPart sid ++ "AAAAA@".toList := by
  have hlength : ((sid.getD []).take IRC_MAXSID ++ List.replicate
      (IRC_MAXSID - ((sid.getD []).take IRC_MAXSID).length) 'A').length = IRC_MAXSID := by
    rw [length_append, length_replicate, length_take]
    omega
  rw [serverPart, initUid, take_left' hlength]

theorem uids_eq (sid : Option CStr) (n : Nat) : uids sid n = serverPart sid ++ uidPart 5 n := by
  have hserver := length_serverPart sid
  induction n with
  | zero =>
    rw [uids, Function.iterate_one, uidGet, initUid_eq]
    match h : serverPart sid, hserver with
    | [a, b, c], _ => rfl
  | succ n ih =>
    have hnext : uids sid (n + 1) = uidGet (uids sid n) := Function.iterate_succ_apply' ..
    have hcall := addOneToUid_uidPart hserver (le_refl 5) n
    rw [Nat.sub_self, replicate_zero, append_nil, append_nil] at hcall
    rw [hnext, ih]
    exact hcall

theorem mod_eq_of_uidPart_eq {j a b : Nat} (h : uidPart j a = uidPart j b) :
    a % (26 * 36 ^ j) = b % (26 * 36 ^ j) := by
  induction j generalizing a b with
  | zero =>
    rw [pow_zero, Nat.mul_one]
    have ha : a % 26 < 26 := Nat.mod_lt a (by decide)
    have hb : b % 26 < 26 := Nat.mod_lt b (by decide)
    exact uidDigit_inj (by omega) (by omega) (List.cons.inj h).1
  | succ j ih =>
    obtain ⟨hfront, hlast⟩ := append_inj' h rfl
    have hmod : a % 36 = b % 36 := uidDigit_inj (Nat.mod_lt a (by decide))
      (Nat.mod_lt b (by decide)) (List.cons.inj hlast).1
    have hpow : 26 * 36 ^ (j + 1) = 36 * (26 * 36 ^ j) := by rw [pow_succ]; ring
    have hfront := ih hfront
    rw [hpow]
    generalize 26 * 36 ^ j = count at hfront
    rw [Nat.mod_mul, Nat.mod_mul, hmod, hfront]

theorem uidDigit_class : ∀ d < 36, ('A' ≤ uidDigit d ∧ uidDigit d ≤ 'Z') ∨
    ('0' ≤ uidDigit d ∧ uidDigit d ≤ '9') := by
  decide +kernel

theorem uidDigit_letter : ∀ d < 26, 'A' ≤ uidDigit d ∧ uidDigit d ≤ 'Z' := by
  decide +kernel

theorem uidPart_form (j n : Nat) : ∃ first rest, uidPart j n = first :: rest ∧
    ('A' ≤ first ∧ first ≤ 'Z') ∧ rest.length = j ∧
    ∀ c ∈ rest, ('A' ≤ c ∧ c ≤ 'Z') ∨ ('0' ≤ c ∧ c ≤ '9') := by
  induction j generalizing n with
  | zero =>
    exact ⟨_, [], rfl, uidDigit_letter _ (Nat.mod_lt n (by decide)), rfl,
      fun c hc => absurd hc not_mem_nil⟩
  | succ j ih =>
    obtain ⟨first, rest, heq, hfirst, hlength, hrest⟩ := ih (n / 36)
    refine ⟨first, rest ++ [uidDigit (n % 36)], by rw [uidPart, heq]; rfl, hfirst, ?_, ?_⟩
    · rw [length_append, hlength, length_singleton]
    · intro c hc
      rcases List.mem_append.mp hc with hc | hc
      · exact hrest c hc
      · rw [List.mem_singleton.mp hc]
        exact uidDigit_class _ (Nat.mod_lt n (by decide))

/-- As many ids as there are, one after the other, are all different, and each is one. -/
theorem uids_never_repeat (sid : Option CStr) :
    (∀ k, ((List.range (26 * 36 ^ 5)).map fun i => uids sid (k + i)).Nodup) ∧
      ∀ n, IsUid (serverPart sid) (uids sid n) := by
  refine ⟨fun k => ?_, fun n => ?_⟩
  · refine List.Nodup.map_on (fun i hi j hj heq => ?_) nodup_range
    rw [mem_range] at hi hj
    rw [uids_eq, uids_eq] at heq
    have hmod := mod_eq_of_uidPart_eq (append_cancel_left heq)
    have hsame : i % (26 * 36 ^ 5) = j % (26 * 36 ^ 5) := Nat.ModEq.add_left_cancel' k hmod
    rwa [Nat.mod_eq_of_lt hi, Nat.mod_eq_of_lt hj] at hsame
  · obtain ⟨first, rest, heq, hform⟩ := uidPart_form 5 n
    exact ⟨first, rest, by rw [uids_eq, heq], hform⟩

end Uid

end Ircd
