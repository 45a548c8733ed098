import Ircd.Match
import Ircd.Address

/-!
`match_cidr` of `match.c`, the third matcher a channel ban is tried with.

It expects `user@address` on both sides: a mask or an address without an `@`
never matches (`matchCidr_eq_false_of_mask`, `matchCidr_eq_false_of_address`).
-/

namespace Ircd

def HOSTLEN : Nat := 63

def USERLEN : Nat := 10

def IDLEN : Nat := 12

/-- What `match_cidr` reads of a socket address: the length of the structure and
its bytes from the place of an IPv4 address on. Before the address, an IPv6
socket address has its flow information there. -/
structure SockAddr where
  ssLen : Nat
  bytes : List Nat
  deriving DecidableEq, Repr

/-- The socket address that `irc_getaddrinfo` returns, from the offset of
`sin_addr` on. -/
def sockAddr (a : Address) : SockAddr :=
  match a.family with
  | .inet => ⟨16, a.bytes ++ List.replicate 8 0⟩
  | .inet6 => ⟨28, List.replicate 4 0 ++ a.bytes ++ List.replicate 4 0⟩

/-- `comp_with_mask`: whole bytes by `memcmp`, then the high bits of the next
byte. -/
def compWithMask (addr dest : List Nat) (mask : Nat) : Bool :=
  if addr.take (mask / 8) = dest.take (mask / 8) then
    decide (mask % 8 = 0) ||
      decide ((addr.getD (mask / 8) 0) >>> (8 - mask % 8) =
        (dest.getD (mask / 8) 0) >>> (8 - mask % 8))
  else false

/-- `match_cidr`. `nicklen` is `NICKLEN`, which bounds the two buffers. -/
def matchCidr (nicklen : Nat) (s1 s2 : CStr) : Bool :=
  let size := nicklen + USERLEN + HOSTLEN + 6
  match strrchr '@' (strlcpy s1 size) with
  | none => false
  | some (mask, ipmask) =>
    match strrchr '@' (strlcpy s2 size) with
    | none => false
    | some (address, ip) =>
      match strrchr '/' ipmask with
      | none => false
      | some (ipmask, len) =>
        let cidrlen := atoi len
        if cidrlen = 0 then false
        else
          match getaddrinfo ip with
          | none => false
          | some ip =>
            let ipaddr := sockAddr ip
            if cidrlen > ipaddr.ssLen * 8 then false
            else
              match getaddrinfo ipmask with
              | none => false
              | some ipmask =>
                let maskaddr := sockAddr ipmask
                if maskaddr.ssLen ≠ ipaddr.ssLen then false
                else
                  compWithMask ipaddr.bytes maskaddr.bytes (BitVec.ofInt 32 cidrlen).toNat &&
                    matchMask mask address

theorem strrchr_strlcpy_eq_none {c : Char} {s : CStr} (size : Nat) (h : c ∉ s) :
    strrchr c (strlcpy s size) = none :=
  strrchr_eq_none_iff.mpr fun hmem => h (List.mem_of_mem_take hmem)

theorem matchCidr_eq_false_of_mask {nicklen : Nat} {s1 s2 : CStr} (h : '@' ∉ s1) :
    matchCidr nicklen s1 s2 = false := by
  simp [matchCidr, strrchr_strlcpy_eq_none _ h]

theorem matchCidr_eq_false_of_address {nicklen : Nat} {s1 s2 : CStr} (h : '@' ∉ s2) :
    matchCidr nicklen s1 s2 = false := by
  simp only [matchCidr, strrchr_strlcpy_eq_none _ h]
  split <;> rfl

end Ircd
