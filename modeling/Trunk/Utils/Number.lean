import Mathlib.Data.Nat.Digits.Lemmas
import Trunk.Utils.CString

/-! # Numbers in text

The digits that `printf` writes for a number with `%x`, and `os_digitstring2number`,
which reads them back (`Trunk.Number.osDigitstring2number_hexString`).
-/

namespace Trunk.Number

open CString

/-- `os_digitchar2int`, where its assert holds. -/
def osDigitchar2int (byte : UInt8) : Option Nat := digit byte

/-- `os_digitstring2number` in a 64-bit number, where the assert on every character
holds. -/
def osDigitstring2number (text : List UInt8) (base : Nat) : Option Nat :=
  text.foldlM (fun number byte => do
    let next ← osDigitchar2int byte
    return (number * base + next) % 2 ^ 64) 0

/-- The character of a hexadecimal digit. -/
def hexDigit (value : Nat) : UInt8 :=
  if value < 10 then ascii '0' + UInt8.ofNat value else ascii 'a' + UInt8.ofNat (value - 10)

/-- What `%x` writes. -/
def hexString (number : Nat) : List UInt8 :=
  if number = 0 then [ascii '0'] else ((Nat.digits 16 number).reverse).map hexDigit

theorem osDigitchar2int_hexDigit {value : Nat} (small : value < 16) :
    osDigitchar2int (hexDigit value) = some value := by
  decide +revert

theorem hexDigit_ne_zero {value : Nat} (small : value < 16) : hexDigit value ≠ 0 := by
  decide +revert

theorem hexString_noNul (number : Nat) : 0 ∉ hexString number := by
  unfold hexString
  split
  · decide
  · intro member
    obtain ⟨value, listed, zero⟩ := List.mem_map.mp member
    exact hexDigit_ne_zero (Nat.digits_lt_base (by decide) (List.mem_reverse.mp listed)) zero

theorem hexString_length_le {number count : Nat} (positive : 0 < count)
    (small : number < 16 ^ count) : (hexString number).length ≤ count := by
  unfold hexString
  split
  · exact positive
  · rw [List.length_map, List.length_reverse]
    exact (Nat.digits_length_le_iff (by decide) number).mpr small

/-- Reading back digits of a number that fits 64 bits. -/
theorem foldlM_hexDigit (digits : List Nat) (small : ∀ value ∈ digits, value < 16)
    (fits : Nat.ofDigits 16 digits < 2 ^ 64) :
    (digits.reverse.map hexDigit).foldlM (fun number byte => do
      let next ← osDigitchar2int byte
      return (number * 16 + next) % 2 ^ 64) 0 = some (Nat.ofDigits 16 digits) := by
  induction digits with
  | nil => rfl
  | cons value digits ih =>
      rw [Nat.ofDigits_cons] at fits ⊢
      have rest := ih (fun other member => small other (List.mem_cons_of_mem _ member)) (by omega)
      rw [List.reverse_cons, List.map_append, List.foldlM_append, rest, List.map_singleton]
      simp only [List.foldlM_cons, osDigitchar2int_hexDigit (small value (List.mem_cons_self ..)),
        List.foldlM_nil, Option.bind_eq_bind, Option.bind_some, Option.pure_def]
      rw [Nat.mod_eq_of_lt (by omega)]
      congr 1
      omega

/-- A number that fits 64 bits is read back from its hexadecimal digits. -/
theorem osDigitstring2number_hexString {number : Nat} (fits : number < 2 ^ 64) :
    osDigitstring2number (hexString number) 16 = some number := by
  unfold hexString osDigitstring2number
  split
  · rename_i zero
    rw [zero]
    rfl
  · have digits := foldlM_hexDigit (Nat.digits 16 number)
      (fun value member => Nat.digits_lt_base (by decide) member)
      (by rw [Nat.ofDigits_digits]; exact fits)
    rw [Nat.ofDigits_digits] at digits
    exact digits

end Trunk.Number
