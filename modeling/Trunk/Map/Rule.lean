import Trunk.Foundation.Memory
import Trunk.Utils.Inet

/-! # MAP rules

The model of what `mapcalc.c` computes for one rule: the delegated prefix that matches it, the
embedded-address bits of that prefix, and from them the IPv4 address, the PSID and the port sets.
Addresses are blocks of bytes in network byte order, and an access outside a block, or a shift by
the width of a word, has no result.

The options of the rule are parsed already, with -1 where `main` has it, and the prefixes are those
of the interfaces that are asked for, in the order of the dump. The texts that are printed, and the
IPv6 address made from the result, are left out.
-/

namespace Trunk.Map

open Memory Network Inet

/-- An `int` where a `size_t` is expected. -/
def sizeT (value : Int) : Nat := (value % 2 ^ 32).toNat

/-- Whether `bmemcmp` of the first bits of two blocks is zero. -/
def bmemcmp (a b : List UInt8) (bits : Nat) : Option Bool := do
  if (← load a 0 (bits / 8)) ≠ (← load b 0 (bits / 8)) then return false
  else if 0 < bits % 8 then
    return (← a[bits / 8]?).toNat >>> (8 - bits % 8) = (← b[bits / 8]?).toNat >>> (8 - bits % 8)
  else return true

/-- `bmemcpy`: the first bits of `b` are copied to `a`. -/
def bmemcpy (a b : List UInt8) (bits : Nat) : Option (List UInt8) := do
  let copied ← store a 0 (← load b 0 (bits / 8))
  if 0 < bits % 8 then
    let mask := UInt8.ofNat (1 <<< (8 - bits % 8) - 1)
    let old ← copied[bits / 8]?
    let new ← b[bits / 8]?
    store copied (bits / 8) [(old &&& mask) ||| (~~~ mask &&& new)]
  else return copied

/-- `bmemcpys64`: some bits of `b`, from a place on, are copied to the front of `a`. -/
def bmemcpys64 (a b : List UInt8) (frombits nbits : Nat) : Option (List UInt8) := do
  let window ← load b (frombits / 8) ((frombits + nbits) / 8 - frombits / 8 + 1)
  let buf ← store (List.replicate 8 0) 0 window
  bmemcpy a (bytes 8 (number buf <<< (frombits % 8) % 2 ^ 64)) nbits

/-- The options of a rule. -/
structure Rule where
  ealen : Int
  prefix4len : Int
  prefix6len : Int
  ipv4prefix : In4
  ipv6prefix : In6
  offset : Int
  psidlen : Int
  psid : Int

/-- The first delegated prefix that matches a rule, with its length. -/
def findPd (rule : Rule) : List (In6 × Int) → Option (Option (In6 × Int))
  | [] => some none
  | (candidate, mask) :: rest => do
      if mask ≥ rule.prefix6len ∧
          (← bmemcmp candidate.bytes rule.ipv6prefix.bytes (sizeT rule.prefix6len)) = true then
        return some (candidate, mask)
      else findPd rule rest

/-- What is computed for a rule. -/
structure Mapped where
  ealen : Int
  psidlen : Int
  psid : Int
  ipv4addr : List UInt8
  addr4len : Int
  deriving DecidableEq

/-- `>>` of a 32-bit word. -/
def shiftRight (word : Nat) (count : Int) : Option Nat :=
  if 0 ≤ count ∧ count < 32 then some (word >>> count.toNat) else none

/-- The PSID: the option, or bits of the delegated prefix. -/
def takePsid (rule : Rule) (pd : In6) (pdlen ealen psidlen : Int) : Option Int :=
  if rule.psid < 0 ∧ psidlen ≤ 16 ∧ 0 ≤ psidlen ∧ 0 ≤ pdlen ∧ psidlen ≤ ealen then do
    let psid16 ← bmemcpys64 [0, 0] pd.bytes (sizeT (rule.prefix6len + ealen - psidlen))
      (sizeT psidlen)
    return number psid16
  else some rule.psid

/-- The IPv4 address: the prefix of the rule, and bits of the delegated prefix behind it. -/
def takeIpv4addr (rule : Rule) (pd : In6) (pdlen ealen psidlen : Int) : Option (List UInt8) :=
  if (0 ≤ pdlen ∨ ealen = psidlen) ∧ psidlen ≤ ealen then do
    let taken ← bmemcpys64 [0, 0, 0, 0] pd.bytes (sizeT rule.prefix6len) (sizeT (ealen - psidlen))
    let shifted ← shiftRight (number taken) rule.prefix4len
    bmemcpy (bytes 4 shifted) rule.ipv4prefix.bytes (sizeT rule.prefix4len)
  else some [0, 0, 0, 0]

/-- The values of a rule, with the delegated prefix that was found for it. -/
def mapEa (rule : Rule) (pd : In6) (pdlen : Int) : Option Mapped := do
  let ealen := if rule.ealen < 0 ∧ 0 ≤ pdlen then pdlen - rule.prefix6len else rule.ealen
  let psidlen := if rule.psidlen < 0 then ealen - (32 - rule.prefix4len) else rule.psidlen
  let psid ← takePsid rule pd pdlen ealen psidlen
  let ipv4addr ← takeIpv4addr rule pd pdlen ealen psidlen
  let taken := (0 ≤ pdlen ∨ ealen = psidlen) ∧ psidlen ≤ ealen
  return {
    ealen := ealen, psidlen := psidlen, psid := psid, ipv4addr := ipv4addr
    addr4len := if taken ∧ rule.prefix4len + ealen < 32 then rule.prefix4len + ealen else 32 }

/-- `main`, of one rule. -/
def mapRule (rule : Rule) (prefixes : List (In6 × Int)) : Option Mapped := do
  match ← findPd rule prefixes with
  | some (pd, pdlen) => mapEa rule pd pdlen
  | none => mapEa rule in6addrAny (-1)

/-- The ranges that are printed as `PORTSETS`. -/
def portsets (offset psidlen : Nat) (psid : Int) : List (Nat × Nat) :=
  if psidlen = 0 then [(0, 65535)]
  else if 0 ≤ psid then
    let first := if offset = 0 then 0 else 1
    (List.range' first (1 <<< offset - first)).map fun k =>
      let start := k <<< (16 - offset) ||| psid.toNat >>> offset
      (start, start + 1 <<< (16 - offset - psidlen) - 1)
  else []

end Trunk.Map
