import Ircd.Text
import Mathlib.Data.Nat.Digits.Defs

/-!
Names in the packets of a name server: `irc_dn_skipname` and `irc_dn_expand`.

Every read of the packet is checked against its end (`byteAt`), whether or not the source
checks it; `overread` is what a read that it should have checked comes to.
-/

namespace Ircd

/-- A packet, from `buf` to `eob`. -/
abbrev Packet := List UInt8

/-- Why reading stops: the message is broken, or a byte at or behind its end was read. -/
inductive DnsFault
  | bad
  | overread
  deriving DecidableEq, Repr

def byteAt (pkt : Packet) (i : Nat) : Except DnsFault Nat :=
  match pkt[i]? with
  | none => .error .overread
  | some b => .ok b.toNat

/-! ### Labels -/

/-- `NS_CMPRSFLGS`: the two bits that tell what a length byte is. -/
def cmprsFlags (n : Nat) : Nat := n &&& 0xc0

/-- `labellen`. -/
def labelLen (pkt : Packet) (lp : Nat) : Except DnsFault Nat := do
  let l ← byteAt pkt lp
  if cmprsFlags l = 0xc0 then .error .bad
  else if cmprsFlags l = 0x40 then
    -- of the extended labels only the bit string is known
    if l = 0x41 then do
      let bitlen ← byteAt pkt (lp + 1)
      .ok (((if bitlen = 0 then 256 else bitlen) + 7) / 8 + 1)
    else .error .bad
  else .ok l

/-- `irc_ns_name_skip`: the place behind the name. -/
def nameSkip (pkt : Packet) (cp : Nat) : Except DnsFault Nat :=
  match h : pkt[cp]? with
  | none => if pkt.length < cp then .error .bad else .ok cp
  | some b =>
    if b.toNat = 0 then .ok (cp + 1)
    else if cmprsFlags b.toNat = 0 then nameSkip pkt (cp + 1 + b.toNat)
    else if cmprsFlags b.toNat = 0x40 then
      match labelLen pkt cp with
      | .error e => .error e
      | .ok l => nameSkip pkt (cp + 1 + l)
    else if cmprsFlags b.toNat = 0xc0 then
      if pkt.length < cp + 2 then .error .bad else .ok (cp + 2)
    else .error .bad
termination_by pkt.length - cp
decreasing_by
  all_goals
    obtain ⟨hlt, -⟩ := List.getElem?_eq_some_iff.mp h
    omega

/-- `irc_dn_skipname`. -/
def dnSkipname (pkt : Packet) (ptr : Nat) : Except DnsFault Nat :=
  (nameSkip pkt ptr).map (· - ptr)

/-- The size of `tmp`. -/
def NS_MAXCDNAME : Nat := 255

/-- The loop of `irc_ns_name_unpack`: `src` is where it began, `len` what it has consumed
there, once it has followed a compressed part. -/
def unpackLoop (pkt : Packet) (src srcp checked : Nat) (len : Option Nat) (tmp : List UInt8) :
    Except DnsFault (Nat × List UInt8) :=
  match byteAt pkt srcp with
  | .error e => .error e
  | .ok n =>
    if n = 0 then .ok (len.getD (srcp + 1 - src), tmp ++ [0])
    else if cmprsFlags n = 0 ∨ cmprsFlags n = 0x40 then
      match labelLen pkt srcp with
      | .error e => .error e
      | .ok l =>
        if _ : NS_MAXCDNAME ≤ tmp.length + l + 1 ∨ pkt.length ≤ srcp + 1 + l then .error .bad
        else
          unpackLoop pkt src (srcp + 1 + l) (checked + l + 1) len
            (tmp ++ (pkt.drop srcp).take (l + 1))
    else if cmprsFlags n = 0xc0 then
      if pkt.length ≤ srcp + 1 then .error .bad
      else
        match byteAt pkt (srcp + 1) with
        | .error e => .error e
        | .ok c =>
          -- a name that goes on longer than the packet has a loop
          if _ : pkt.length ≤ (n &&& 0x3f) * 256 + c ∨ pkt.length ≤ checked + 2 then .error .bad
          else
            unpackLoop pkt src ((n &&& 0x3f) * 256 + c) (checked + 2)
              (some (len.getD (srcp + 2 - src))) tmp
    else .error .bad
termination_by (NS_MAXCDNAME - tmp.length) + (pkt.length - checked)
decreasing_by
  · simp only [List.length_append, List.length_take, List.length_drop]
    omega
  · omega

/-- `irc_ns_name_unpack`: how much of the packet it consumes, and the labels. -/
def nameUnpack (pkt : Packet) (src : Nat) : Except DnsFault (Nat × List UInt8) :=
  if pkt.length ≤ src then .error .bad else unpackLoop pkt src src 0 none []

/-! ### Text -/

/-- `special`. -/
def dnsSpecial (c : Nat) : Bool :=
  [0x22, 0x2e, 0x3b, 0x5c, 0x28, 0x29, 0x40, 0x24].contains c

/-- `printable`. -/
def dnsPrintable (c : Nat) : Bool := decide (0x20 < c) && decide (c < 0x7f)

def dnsChar (c : Nat) : CStr :=
  if dnsSpecial c then ['\\', Char.ofNat c]
  else if !dnsPrintable c then
    ['\\', Nat.digitChar (c / 100), Nat.digitChar (c % 100 / 10), Nat.digitChar (c % 10)]
  else [Char.ofNat c]

/-- The bytes of a label behind `dn`, in a buffer of `size`. -/
def putLabel (size : Nat) : CStr → List UInt8 → Option CStr
  | dn, [] => some dn
  | dn, c :: label =>
    if size < dn.length + (dnsChar c.toNat).length then none
    else putLabel size (dn ++ dnsChar c.toNat) label

/-- `%02x`. -/
def hex2 (n : Nat) : CStr :=
  if n < 16 then '0' :: Nat.toDigits 16 n else Nat.toDigits 16 n

/-- `irc_decode_bitstring`: `dn` with the bit string that begins with `src`. -/
def decodeBitstring (size : Nat) (dn : CStr) (src : List UInt8) : Option CStr :=
  let byte := fun i => (src.getD i 0).toNat
  let blen := if byte 0 = 0 then 256 else byte 0
  let plen := (blen + 3) / 4 + 6 + if 99 < blen then 3 else if 9 < blen then 2 else 1
  if size ≤ dn.length + plen then none
  else
    let whole := ((List.range (blen / 8)).map fun i => hex2 (byte (i + 1))).flatten
    let tc := byte (blen / 8 + 1)
    let b := blen % 8
    let part :=
      -- `tc` is a `char`, its sign is carried into the mask
      if 4 < b then hex2 ((if 0x80 ≤ tc then tc + 0xff00 else tc) &&& (0xff <<< (8 - b)))
      else if 0 < b then Nat.toDigits 16 ((tc / 16) &&& (0x0f <<< (4 - b)))
      else []
    some (dn ++ "\\[x".toList ++ whole ++ part ++ '/' :: Nat.toDigits 10 blen ++ [']'])

/-- The loop of `irc_ns_name_ntop`. -/
def ntopLoop (size : Nat) (dn : CStr) : List UInt8 → Option CStr
  | [] => none
  | c :: rest =>
    if c.toNat = 0 then
      let dn := if dn.isEmpty then ['.'] else dn
      if size ≤ dn.length then none else some dn
    else if cmprsFlags c.toNat = 0xc0 then none
    else if !dn.isEmpty && decide (size ≤ dn.length) then none
    else
      let dn := if dn.isEmpty then dn else dn ++ ['.']
      match labelLen (c :: rest) 0 with
      | .error _ => none
      | .ok l =>
        if size ≤ dn.length + l then none
        else
          let put :=
            if cmprsFlags c.toNat = 0x40 then decodeBitstring size dn rest
            else putLabel size dn (rest.take l)
          match put with
          | none => none
          | some dn => ntopLoop size dn (rest.drop l)
termination_by src => src.length
decreasing_by
  simp only [List.length_cons, List.length_drop]
  omega

/-- The size of `hostbuf`. -/
def HOSTBUF : Nat := 163

/-- `irc_dn_expand` into `hostbuf`: how much of the packet the name takes, and its text. -/
def dnExpand (pkt : Packet) (src : Nat) : Except DnsFault (Nat × CStr) :=
  match nameUnpack pkt src with
  | .error e => .error e
  | .ok (n, tmp) =>
    match ntopLoop HOSTBUF [] tmp with
    | none => .error .bad
    | some text => .ok (n, if text.head? = some '.' then [] else text)

end Ircd
