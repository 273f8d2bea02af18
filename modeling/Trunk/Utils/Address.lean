import Trunk.Utils.Number

/-! # MAC and IP addresses

The model of `mac.h`, `ip.h` and the masked comparison of `bits.h`. The text that
`um_macstring` writes for an address names it (`Trunk.Address.macString_injective`). The
comparison of MAC addresses under a mask wants every byte to differ, so it never holds of
addresses that are equal under the mask (`Trunk.Address.zipWith_ne_of_osBufmaskmatch`); the one
of `ip.h` holds of those.

An IP address is the number of its four bytes in network order. What the code does with
it (equality, `&`, the sum of its bytes) is the same in either byte order of the host.
-/

namespace Trunk.Address

open CString Number

/-- An address of `OS_MACSIZE` bytes. -/
structure Mac where
  bytes : List UInt8
  size : bytes.length = 6
  deriving DecidableEq, Repr

/-- `OS_ZEROMAC`. -/
def osZeromac : Mac := ⟨[0, 0, 0, 0, 0, 0], rfl⟩

/-- `OS_FULLMAC`. -/
def osFullmac : Mac := ⟨[0xff, 0xff, 0xff, 0xff, 0xff, 0xff], rfl⟩

/-- `is_good_mac`: neither zero nor full. -/
def isGoodMac (mac : Mac) : Bool := mac ≠ osZeromac && mac ≠ osFullmac

/-- `os_maskmatch`. -/
def osMaskmatch (a b mask : UInt8) : Bool := (a &&& mask) != (b &&& mask)

/-- `os_bufmaskmatch`, for buffers of one length. -/
def osBufmaskmatch : List UInt8 → List UInt8 → List UInt8 → Bool
  | a :: as, b :: bs, mask :: masks =>
      if osMaskmatch a b mask = false then false else osBufmaskmatch as bs masks
  | _, _, _ => true

/-- `os_macmaskmach`. -/
def osMacmaskmach (a b mask : Mac) : Bool := osBufmaskmatch a.bytes b.bytes mask.bytes

/-- `os_ipmatch`. -/
def osIpmatch (a b mask : UInt32) : Bool := (a &&& mask) == (b &&& mask)

/-- `os_getmac_bystring`, where its asserts hold. -/
def osGetmacBystring (macstring : CStr) : Option Mac := do
  let width ← if macstring.bytes.length = 17 then some 3
    else if macstring.bytes.length = 12 then some 2 else none
  let byte (index : Nat) : Option UInt8 :=
    (osDigitstring2number ((macstring.bytes.drop (width * index)).take 2) 16).map UInt8.ofNat
  return ⟨[← byte 0, ← byte 1, ← byte 2, ← byte 3, ← byte 4, ← byte 5], rfl⟩

/-- What `%.2x` writes for a byte. -/
def hexByte (byte : UInt8) : List UInt8 :=
  [hexDigit (byte.toNat / 16), hexDigit (byte.toNat % 16)]

/-- The bytes of an IP address. -/
def ipBytes (ip : UInt32) : List UInt8 :=
  [(ip >>> 24).toUInt8, (ip >>> 16).toUInt8, (ip >>> 8).toUInt8, ip.toUInt8]

/-- What `%d` writes for a byte. -/
def decimalByte (byte : UInt8) : List UInt8 :=
  (toString byte.toNat).toList.map ascii

/-- `os_ipstring`: the text of `inet_ntoa`. -/
def osIpstring (ip : UInt32) : List UInt8 :=
  ((ipBytes ip).map decimalByte).intersperse [ascii '.'] |>.flatten

/-- `um_macstring`: `os_macsnprintf` with a colon. -/
def macString (mac : Mac) : List UInt8 :=
  (mac.bytes.map hexByte).intersperse [ascii ':'] |>.flatten

/-- The comparison under a mask does not hold of buffers that are equal under it. -/
theorem zipWith_ne_of_osBufmaskmatch {a b mask : List UInt8} (sameA : a.length = mask.length)
    (sameB : b.length = mask.length) (nonempty : mask ≠ [])
    (matched : osBufmaskmatch a b mask = true) :
    List.zipWith (fun byte mask => byte &&& mask) a mask ≠
      List.zipWith (fun byte mask => byte &&& mask) b mask := by
  obtain ⟨first, masks, rfl⟩ := List.exists_cons_of_ne_nil nonempty
  obtain ⟨x, xs, rfl⟩ := List.exists_cons_of_length_eq_add_one sameA
  obtain ⟨y, ys, rfl⟩ := List.exists_cons_of_length_eq_add_one sameB
  intro equal
  rw [osBufmaskmatch, if_pos] at matched
  · cases matched
  · rw [List.zipWith_cons_cons, List.zipWith_cons_cons, List.cons.injEq] at equal
    rw [osMaskmatch, equal.1, bne_self_eq_false]

theorem hexDigit_injective {first second : Nat} (small : first < 16) (small' : second < 16)
    (same : hexDigit first = hexDigit second) : first = second := by
  have digits := congrArg osDigitchar2int same
  rw [osDigitchar2int_hexDigit small, osDigitchar2int_hexDigit small'] at digits
  exact Option.some.inj digits

theorem hexByte_injective {first second : UInt8} (same : hexByte first = hexByte second) :
    first = second := by
  have bound := first.toNat_lt
  have bound' := second.toNat_lt
  simp only [hexByte, List.cons.injEq, and_true] at same
  have high := hexDigit_injective (by omega) (by omega) same.1
  have low := hexDigit_injective (by omega) (by omega) same.2
  apply UInt8.toNat_inj.mp
  omega

/-- Different addresses have different texts. -/
theorem macString_injective {first second : Mac} (same : macString first = macString second) :
    first = second := by
  obtain ⟨bytes, size⟩ := first
  obtain ⟨bytes', size'⟩ := second
  match bytes, size, bytes', size' with
  | [a, b, c, d, e, f], _, [a', b', c', d', e', f'], _ =>
      simp only [macString, List.map_cons, List.map_nil, List.intersperse, List.flatten_cons,
        List.flatten_nil, hexByte, List.cons_append, List.nil_append, List.cons.injEq, true_and,
        and_true] at same
      obtain ⟨a1, a0, b1, b0, c1, c0, d1, d0, e1, e0, f1, f0⟩ := same
      have pair : ∀ {x y : UInt8}, hexDigit (x.toNat / 16) = hexDigit (y.toNat / 16) →
          hexDigit (x.toNat % 16) = hexDigit (y.toNat % 16) → x = y := by
        intro x y high low
        apply hexByte_injective
        rw [hexByte, hexByte, high, low]
      rw [pair a1 a0, pair b1 b0, pair c1 c0, pair d1 d0, pair e1 e0, pair f1 f0]

end Trunk.Address
