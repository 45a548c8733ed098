import Ircd.Text
import Ircd.Lib.Bytes

/-!
Numeric addresses: `inet_aton` and `inet_pton` of `inet_misc.c`, and the part
of `irc_getaddrinfo` that a lookup with `AI_NUMERICHOST` reaches.
-/

namespace Ircd

/-- The address families. -/
inductive Family where
  | inet
  | inet6
  deriving DecidableEq, Repr

/-- An address: its family and its bytes in network order. -/
structure Address where
  family : Family
  bytes : List Nat
  deriving DecidableEq, Repr

def Family.width : Family → Nat
  | .inet => 32
  | .inet6 => 128

/-- The two addresses are of one family and agree on the first `n` bits. -/
def Address.AgreeOn (n : Nat) (a b : Address) : Prop :=
  a.family = b.family ∧ Bytes.highBits n a.bytes = Bytes.highBits n b.bytes

instance (n : Nat) (a b : Address) : Decidable (a.AgreeOn n b) :=
  inferInstanceAs (Decidable (_ ∧ _))

/-! ### inet_aton -/

/-- The value of a hexadecimal digit, `none` for any other character. -/
def hexVal (c : Char) : Option Nat :=
  if isDigit c then some (digitVal c)
  else if 'a' ≤ c ∧ c ≤ 'f' then some (c.toNat - 'a'.toNat + 10)
  else if 'A' ≤ c ∧ c ≤ 'F' then some (c.toNat - 'A'.toNat + 10)
  else none

/-- The inner loop of `inet_aton`: collect a number in the given base, in an
`unsigned int`. -/
def atonDigits (base : Nat) : Nat → CStr → Nat × CStr
  | val, [] => (val, [])
  | val, c :: cp =>
    if isDigit c then atonDigits base ((val * base + digitVal c) % 2 ^ 32) cp
    else
      match base, hexVal c with
      | 16, some d => atonDigits base ((val * 16 + d) % 2 ^ 32) cp
      | _, _ => (val, c :: cp)

/-- One number of `inet_aton` with its `0` or `0x` in front. -/
def atonNumber : CStr → Nat × CStr
  | '0' :: 'x' :: cp => atonDigits 16 0 cp
  | '0' :: 'X' :: cp => atonDigits 16 0 cp
  | '0' :: cp => atonDigits 8 0 cp
  | cp => atonDigits 10 0 cp

/-- The outer loop of `inet_aton`, with the number of parts that may still be
followed by a `.`: the parts before the last number, that number, and the rest
of the text. -/
def atonParts : Nat → List Nat → CStr → Option (List Nat × Nat × CStr)
  | room, parts, cp =>
    match atonNumber cp with
    | (val, '.' :: cp) =>
      match room with
      | 0 => none
      | room + 1 => if val > 0xff then none else atonParts room (parts ++ [val]) cp
    | (val, cp) => some (parts, val, cp)

/-- The four bytes of an `unsigned int` in network order. -/
def htonl (val : Nat) : List Nat :=
  [val / 2 ^ 24 % 256, val / 2 ^ 16 % 256, val / 2 ^ 8 % 256, val % 256]

/-- `inet_aton`. -/
def inetAton (cp : CStr) : Option (List Nat) :=
  match atonParts 3 [] cp with
  | none => none
  | some (parts, val, rest) =>
    if rest.all isSpace then
      match parts with
      | [] => some (htonl val)
      | [a] => if val > 0xffffff then none else some (htonl (a * 2 ^ 24 + val))
      | [a, b] => if val > 0xffff then none else some (htonl (a * 2 ^ 24 + b * 2 ^ 16 + val))
      | [a, b, c] =>
        if val > 0xff then none else some (htonl (a * 2 ^ 24 + b * 2 ^ 16 + c * 2 ^ 8 + val))
      | _ => none
    else none

/-! ### inet_pton -/

/-- The loop of `inet_pton4`: the octets stored so far, the one being read,
and whether it has a digit. -/
def pton4Loop : List Nat → Nat → Bool → CStr → Option (List Nat)
  | done, cur, sawDigit, [] =>
    if sawDigit = true ∧ done.length = 3 then some (done ++ [cur]) else none
  | done, cur, sawDigit, ch :: src =>
    if isDigit ch then
      if cur * 10 + digitVal ch > 255 then none
      else pton4Loop done (cur * 10 + digitVal ch) true src
    else if ch = '.' ∧ sawDigit = true then
      if done.length = 3 then none else pton4Loop (done ++ [cur]) 0 false src
    else none

/-- `inet_pton4`. -/
def inetPton4 (src : CStr) : Option (List Nat) := pton4Loop [] 0 false src

def groupBytes (val : Nat) : List Nat := [val / 256, val % 256]

/-- The variables of the loop of `inet_pton6`: the bytes stored before `tp`,
the place of the `::`, the group being read and whether it has a digit, and
the text from the start of that group. -/
structure Pton6 where
  tmp : List Nat
  colonp : Option Nat
  val : Nat
  sawXdigit : Bool
  curtok : CStr
  deriving DecidableEq, Repr

/-- The loop of `inet_pton6`. -/
def pton6Loop : Pton6 → CStr → Option Pton6
  | st, [] => some st
  | st, ch :: src =>
    match hexVal ch with
    | some d =>
      if st.val * 16 + d > 0xffff then none
      else pton6Loop { st with val := st.val * 16 + d, sawXdigit := true } src
    | none =>
      if ch = ':' then
        if st.sawXdigit = false then
          match st.colonp with
          | some _ => none
          | none => pton6Loop { st with curtok := src, colonp := some st.tmp.length } src
        else if st.tmp.length + 2 > 16 then none
        else
          pton6Loop { st with
            curtok := src, tmp := st.tmp ++ groupBytes st.val, sawXdigit := false, val := 0 } src
      else if ch = '.' ∧ st.tmp.length + 4 ≤ 16 then
        -- a dotted quad ends the address
        (inetPton4 st.curtok).map fun quad =>
          { st with tmp := st.tmp ++ quad, sawXdigit := false }
      else none

/-- Behind the loop of `inet_pton6`: store the last group and move what stands
behind the `::` to the end. -/
def pton6Finish (st : Pton6) : Option (List Nat) :=
  if st.sawXdigit = true ∧ st.tmp.length + 2 > 16 then none
  else
    let tmp := if st.sawXdigit then st.tmp ++ groupBytes st.val else st.tmp
    match st.colonp with
    | some n => some (tmp.take n ++ List.replicate (16 - tmp.length) 0 ++ tmp.drop n)
    | none => if tmp.length = 16 then some tmp else none

/-- `inet_pton6`. -/
def inetPton6 (src : CStr) : Option (List Nat) :=
  let run (src : CStr) := (pton6Loop ⟨[], none, 0, false, src⟩ src).bind pton6Finish
  match src with
  | ':' :: ':' :: rest => run (':' :: rest)
  | ':' :: _ => none
  | src => run src

/-- `irc_getaddrinfo` with `AI_NUMERICHOST` for any family: the entries of the
`explore` table for IPv6 come first. -/
def getaddrinfo (host : CStr) : Option Address :=
  match inetPton6 host with
  | some bytes => some ⟨.inet6, bytes⟩
  | none => (inetAton host).map fun bytes => ⟨.inet, bytes⟩

example : getaddrinfo "10.1.2.3".toList = some ⟨.inet, [10, 1, 2, 3]⟩ := by decide
example : getaddrinfo "fe80::1:2".toList =
    some ⟨.inet6, [0xfe, 0x80, 0, 0, 0, 0, 0, 0, 0, 0, 0, 0, 0, 1, 0, 2]⟩ := by decide

/-! ### The characters of an address -/

def isAddressChar (c : Char) : Bool :=
  (hexVal c).isSome || c == '.' || c == ':' || c == 'x' || c == 'X' || isSpace c

theorem isAddressChar_of_isDigit {c : Char} (h : isDigit c = true) : isAddressChar c = true := by
  simp [isAddressChar, hexVal, h]

theorem isAddressChar_of_hexVal {c : Char} {d : Nat} (h : hexVal c = some d) :
    isAddressChar c = true := by
  simp [isAddressChar, h]

theorem atonDigits_chars {base val : Nat} {cp : CStr} :
    ∀ c ∈ cp, isAddressChar c = true ∨ c ∈ (atonDigits base val cp).2 := by
  induction cp generalizing val with
  | nil => simp
  | cons c cp ih =>
    intro e he
    unfold atonDigits
    split
    case isTrue hd =>
      rcases List.mem_cons.mp he with rfl | he
      · exact .inl (isAddressChar_of_isDigit hd)
      · exact ih e he
    case isFalse =>
      split
      case h_1 hx =>
        rcases List.mem_cons.mp he with rfl | he
        · exact .inl (isAddressChar_of_hexVal hx)
        · exact ih e he
      case h_2 => exact .inr he

theorem atonNumber_chars {cp : CStr} :
    ∀ c ∈ cp, isAddressChar c = true ∨ c ∈ (atonNumber cp).2 := by
  have hzero : isAddressChar '0' = true := by decide
  intro c hc
  unfold atonNumber
  split
  case h_1 | h_2 =>
    simp only [List.mem_cons] at hc
    rcases hc with rfl | rfl | hc
    · exact .inl hzero
    · exact .inl (by decide)
    · exact atonDigits_chars c hc
  case h_3 =>
    simp only [List.mem_cons] at hc
    rcases hc with rfl | hc
    · exact .inl hzero
    · exact atonDigits_chars c hc
  case h_4 => exact atonDigits_chars c hc

theorem atonParts_cases {room : Nat} {parts parts' : List Nat} {val : Nat} {cp rest : CStr}
    (h : atonParts room parts cp = some (parts', val, rest)) :
    atonNumber cp = (val, rest) ∨
      ∃ v cp' r, atonNumber cp = (v, '.' :: cp') ∧ r < room ∧
        atonParts r (parts ++ [v]) cp' = some (parts', val, rest) := by
  unfold atonParts at h
  split at h
  case h_1 v cp' hn =>
    split at h
    · simp at h
    · rename_i r
      split at h
      · simp at h
      · exact .inr ⟨v, cp', r, hn, Nat.lt_succ_self r, h⟩
  case h_2 v cp' _ hn =>
    simp only [Option.some.injEq, Prod.mk.injEq] at h
    obtain ⟨-, rfl, rfl⟩ := h
    exact .inl hn

theorem atonParts_chars {room : Nat} {parts parts' : List Nat} {val : Nat} {cp rest : CStr}
    (h : atonParts room parts cp = some (parts', val, rest)) :
    ∀ c ∈ cp, isAddressChar c = true ∨ c ∈ rest := by
  induction room using Nat.strongRecOn generalizing parts cp with
  | ind room ih =>
    intro c hc
    have hnum := atonNumber_chars c hc
    rcases atonParts_cases h with hn | ⟨v, cp', r, hn, hr, h'⟩
    · rw [hn] at hnum
      exact hnum
    · rw [hn, List.mem_cons] at hnum
      rcases hnum with hok | rfl | hmem
      · exact .inl hok
      · exact .inl (by decide)
      · exact ih r hr h' c hmem

theorem inetAton_chars {cp : CStr} {bytes : List Nat} (h : inetAton cp = some bytes) :
    ∀ c ∈ cp, isAddressChar c = true := by
  intro c hc
  unfold inetAton at h
  split at h
  · simp at h
  · rename_i parts val rest hparts
    split at h
    · rename_i hrest
      rcases atonParts_chars hparts c hc with hok | hmem
      · exact hok
      · have hspace := List.all_eq_true.mp hrest c hmem
        simp [isAddressChar, hspace]
    · simp at h

theorem pton4Loop_chars {done : List Nat} {cur : Nat} {saw : Bool} {src : CStr} {bytes : List Nat}
    (h : pton4Loop done cur saw src = some bytes) : ∀ c ∈ src, isAddressChar c = true := by
  induction src generalizing done cur saw with
  | nil => simp
  | cons ch src ih =>
    intro c hc
    unfold pton4Loop at h
    split at h
    case isTrue hd =>
      split at h
      · simp at h
      · rcases List.mem_cons.mp hc with rfl | hc
        · exact isAddressChar_of_isDigit hd
        · exact ih h c hc
    case isFalse =>
      split at h
      case isTrue hdot =>
        split at h
        · simp at h
        · rcases List.mem_cons.mp hc with rfl | hc
          · rw [hdot.1]
            decide
          · exact ih h c hc
      case isFalse => simp at h

theorem pton6Loop_chars {st st' : Pton6} {src : CStr} (h : pton6Loop st src = some st')
    (hsuf : src <:+ st.curtok) : ∀ c ∈ src, isAddressChar c = true := by
  induction src generalizing st with
  | nil => simp
  | cons ch src ih =>
    intro c hc
    have hsrc : src <:+ st.curtok := (List.suffix_cons ch src).trans hsuf
    unfold pton6Loop at h
    split at h
    case h_1 d hx =>
      split at h
      · simp at h
      · rcases List.mem_cons.mp hc with rfl | hc
        · exact isAddressChar_of_hexVal hx
        · exact ih h hsrc c hc
    case h_2 =>
      split at h
      case isTrue hcolon =>
        rcases List.mem_cons.mp hc with rfl | hc
        · rw [hcolon]
          decide
        · split at h
          · split at h
            · simp at h
            · exact ih h List.suffix_rfl c hc
          · split at h
            · simp at h
            · exact ih h List.suffix_rfl c hc
      case isFalse =>
        split at h
        · -- the dotted quad starts at `curtok`, before the rest of the text
          obtain ⟨quad, hquad, -⟩ := Option.map_eq_some_iff.mp h
          exact pton4Loop_chars hquad c (hsuf.subset hc)
        · simp at h

theorem inetPton6_chars {src : CStr} {bytes : List Nat} (h : inetPton6 src = some bytes) :
    ∀ c ∈ src, isAddressChar c = true := by
  have hrun : ∀ s : CStr, (pton6Loop ⟨[], none, 0, false, s⟩ s).bind pton6Finish = some bytes →
      ∀ c ∈ s, isAddressChar c = true := by
    intro s hs
    obtain ⟨st, hst, -⟩ := Option.bind_eq_some_iff.mp hs
    exact pton6Loop_chars hst List.suffix_rfl
  unfold inetPton6 at h
  split at h
  · intro c hc
    rcases List.mem_cons.mp hc with rfl | hc
    · decide
    · exact hrun _ h c hc
  · simp at h
  · exact hrun _ h

theorem getaddrinfo_chars {host : CStr} {a : Address} (h : getaddrinfo host = some a) :
    ∀ c ∈ host, isAddressChar c = true := by
  unfold getaddrinfo at h
  split at h
  · rename_i bytes h6
    exact inetPton6_chars h6
  · obtain ⟨bytes, h4, -⟩ := Option.map_eq_some_iff.mp h
    exact inetAton_chars h4

theorem at_notMem_of_getaddrinfo {host : CStr} {a : Address} (h : getaddrinfo host = some a) :
    '@' ∉ host := by
  intro hat
  have := getaddrinfo_chars h '@' hat
  simp [show isAddressChar '@' = false by decide] at this

end Ircd
