import Mathlib.Algebra.Group.Int.Defs
import Mathlib.Algebra.Group.Nat.Defs
import Mathlib.Data.List.TakeWhile
import Mathlib.Data.UInt

/-! # C strings

A string is the list of its bytes before the terminating NUL. The functions of the C
library that the modelled code calls are stated on such lists, in the C locale:
comparison, bounded copy, tokens, the scanning of words and of numbers.
-/

namespace Trunk.CString

/-- A string: bytes without a NUL. -/
structure CStr where
  bytes : List UInt8
  noNul : 0 ∉ bytes
  deriving DecidableEq, Repr

theorem CStr.bytes_injective : Function.Injective CStr.bytes := by
  rintro ⟨first, _⟩ ⟨second, _⟩ same
  obtain rfl : first = second := same
  rfl

/-- The string that starts a buffer, as `strlen` finds its end. -/
def CStr.ofBuffer (buffer : List UInt8) : CStr where
  bytes := buffer.takeWhile fun byte => byte ≠ 0
  noNul := by
    intro member
    have nonzero := List.mem_takeWhile_imp member
    simp at nonzero

/-- A buffer without a NUL is the string. -/
theorem CStr.ofBuffer_eq {buffer : List UInt8} (noNul : 0 ∉ buffer) :
    CStr.ofBuffer buffer = ⟨buffer, noNul⟩ := by
  have whole : (buffer.takeWhile fun byte => byte ≠ 0) = buffer := by
    rw [List.takeWhile_eq_self_iff]
    intro byte member
    rw [decide_eq_true_eq]
    rintro rfl
    exact noNul member
  simp only [CStr.ofBuffer, whole]

/-- The byte of an ASCII character. -/
def ascii (character : Char) : UInt8 := character.toNat.toUInt8

/-- `strncmp(first, second, length) == 0`. -/
def strncmpEq (length : Nat) (first second : List UInt8) : Bool :=
  first.take length = second.take length

/-- What `os_strlcpy` leaves in a buffer of `size` bytes. -/
def osStrlcpy (source : List UInt8) (size : Nat) : List UInt8 := source.take (size - 1)

/-- `isspace`. -/
def isSpace (byte : UInt8) : Bool := (9 ≤ byte && byte ≤ 13) || byte = 32

/-- A `%s` conversion of `sscanf`: the word after leading white space, and what
follows it. -/
def scanWord (text : List UInt8) : List UInt8 × List UInt8 :=
  let start := text.dropWhile isSpace
  (start.takeWhile fun byte => !isSpace byte, start.dropWhile fun byte => !isSpace byte)

/-- The tokens `strtok` finds in a text, with one delimiter. -/
def strtok (delimiter : UInt8) (text : List UInt8) : List (List UInt8) :=
  (text.splitOn delimiter).filter fun token => !token.isEmpty

/-- The value of a digit in bases up to sixteen. -/
def digit (byte : UInt8) : Option Nat :=
  if ascii '0' ≤ byte && byte ≤ ascii '9' then some (byte - ascii '0').toNat
  else if ascii 'a' ≤ byte && byte ≤ ascii 'f' then some ((byte - ascii 'a').toNat + 10)
  else if ascii 'A' ≤ byte && byte ≤ ascii 'F' then some ((byte - ascii 'A').toNat + 10)
  else none

/-- The number that digits of a base stand for, if all bytes are such digits and there
is one at least. -/
def digits (base : Nat) (text : List UInt8) : Option Nat :=
  if text.isEmpty then none
  else text.foldlM (fun value byte => do
    let next ← digit byte
    if next < base then some (value * base + next) else none) 0

/-- The number an unsigned text stands for, in the base its start announces. -/
def magnitude : List UInt8 → Option Nat
  | 48 :: 120 :: rest => digits 16 rest
  | 48 :: 88 :: rest => digits 16 rest
  | 48 :: rest => digits 8 (48 :: rest)
  | text => digits 10 text

/-- `strtoul(text, &end, 0)` with an `unsigned long` of `width` bits, where it reads
the text to its end; `none` where `end` stops before. The text has no white space. -/
def strtoul (width : Nat) (text : List UInt8) : Option Nat :=
  let negative := text.head? = some (ascii '-')
  let signed := negative || text.head? = some (ascii '+')
  (magnitude (if signed then text.tail else text)).map fun value =>
    if 2 ^ width ≤ value then 2 ^ width - 1
    else if negative then (2 ^ width - value) % 2 ^ width else value

/-- `strtoul(text, &end, 10)` with an `unsigned long` of `width` bits, where it reads the text to
its end. -/
def strtoulDecimal (width : Nat) (text : List UInt8) : Option Nat :=
  let start := text.dropWhile isSpace
  let negative := start.head? = some (ascii '-')
  let signed := negative || start.head? = some (ascii '+')
  (digits 10 (if signed then start.tail else start)).map fun value =>
    if 2 ^ width ≤ value then 2 ^ width - 1
    else if negative then (2 ^ width - value) % 2 ^ width else value

/-- The number of the digits of a base that a text starts with. -/
def leadingDigits (base : Nat) (text : List UInt8) : Nat :=
  (text.takeWhile fun byte => (digit byte).any (· < base)).foldl
    (fun value byte => value * base + (digit byte).getD 0) 0

/-- The number an unsigned text starts with, in the base its start announces. -/
def leadingMagnitude : List UInt8 → Nat
  | 48 :: 120 :: rest => leadingDigits 16 rest
  | 48 :: 88 :: rest => leadingDigits 16 rest
  | 48 :: rest => leadingDigits 8 rest
  | text => leadingDigits 10 text

/-- `strtoul(text, NULL, 0)` with an `unsigned long` of `width` bits. -/
def strtoulFront (width : Nat) (text : List UInt8) : Nat :=
  let start := text.dropWhile isSpace
  let negative := start.head? = some (ascii '-')
  let signed := negative || start.head? = some (ascii '+')
  let value := leadingMagnitude (if signed then start.tail else start)
  if 2 ^ width ≤ value then 2 ^ width - 1
  else if negative then (2 ^ width - value) % 2 ^ width else value

/-- `strtoul(text, NULL, 10)` with an `unsigned long` of `width` bits. -/
def strtoulDecimalFront (width : Nat) (text : List UInt8) : Nat :=
  let start := text.dropWhile isSpace
  let negative := start.head? = some (ascii '-')
  let signed := negative || start.head? = some (ascii '+')
  let value := leadingDigits 10 (if signed then start.tail else start)
  if 2 ^ width ≤ value then 2 ^ width - 1
  else if negative then (2 ^ width - value) % 2 ^ width else value

/-- The signed decimal number a text starts with, after white space. -/
def leadingInt (text : List UInt8) : Int :=
  let start := text.dropWhile isSpace
  let negative := start.head? = some (ascii '-')
  let signed := negative || start.head? = some (ascii '+')
  let value : Int := leadingDigits 10 (if signed then start.tail else start)
  if negative then -value else value

/-- `atoi`, with a `long` of 32 bits. -/
def atoi (text : List UInt8) : Int32 :=
  Int32.ofInt (max (-2 ^ 31) (min (2 ^ 31 - 1) (leadingInt text)))

/-- `atoll`. -/
def atoll (text : List UInt8) : Int64 :=
  Int64.ofInt (max (-2 ^ 63) (min (2 ^ 63 - 1) (leadingInt text)))

/-- The digits behind `0x`, which a hexadecimal number may start with. -/
def hexStart : List UInt8 → List UInt8
  | 48 :: 120 :: rest => rest
  | 48 :: 88 :: rest => rest
  | text => text

/-- A `%x` conversion of `sscanf`, with an `unsigned long` of 32 bits: the number, and what is
left behind it. -/
def scanHex (text : List UInt8) : Option (UInt32 × List UInt8) :=
  let start := text.dropWhile isSpace
  let negative := start.head? = some (ascii '-')
  let signed := negative || start.head? = some (ascii '+')
  let number := hexStart (if signed then start.tail else start)
  let isHex (byte : UInt8) : Bool := (digit byte).isSome
  (digits 16 (number.takeWhile isHex)).map fun value =>
    (if 2 ^ 32 ≤ value then 2 ^ 32 - 1
      else if negative then -UInt32.ofNat value else UInt32.ofNat value,
      number.dropWhile isHex)

end Trunk.CString
