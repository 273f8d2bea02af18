import Trunk.Partool.RoundTrip

/-! # Corrupt partitions

`part_high_read` compares the CRC that is written in front of a cache with the CRC of what follows.
It reads the written one up to the first NUL with a loop that asserts that every character is a
digit. So it reports a corrupt cache exactly if the garbage consists of hexadecimal digits
(`Trunk.Partool.reports_iff`); of an erased partition it makes an abort
(`Trunk.Partool.not_reports_erased`).
-/

namespace Trunk.Partool

open CString Number Crc32

variable {past : UInt8} {cache text : List UInt8} {mode : PartMode} {xor : UInt32}

/-- The text in front of a cache that stands for its CRC. -/
def crcStored (cache : List UInt8) : List UInt8 :=
  (CStr.ofBuffer (cache.take crc32Stringlen)).bytes

/-- The number that the hexadecimal digits of a text stand for. -/
def hexNumber (text : List UInt8) : Nat :=
  text.foldl (fun number byte => number * 16 + (digit byte).getD 0) 0

/-- A text stands for a CRC. -/
def Denotes (text : List UInt8) (crc : UInt32) : Prop :=
  (∀ byte ∈ text, (digit byte).isSome = true) ∧ hexNumber text = crc.toNat

instance (text : List UInt8) (crc : UInt32) : Decidable (Denotes text crc) :=
  inferInstanceAs (Decidable (_ ∧ _))

/-- A block without variables whose cache was filled from a partition. -/
def loaded (mode : PartMode) (xor : UInt32) (cache : List UInt8) : PartBlock :=
  { partBlockNew mode cache.length xor with cache := cache }

/-- `part_high_read` runs to its end, and returns zero or an error as the text of the CRC stands
for the CRC or not. -/
def Reports (past : UInt8) (mode : PartMode) (xor : UInt32) (cache : List UInt8) : Prop :=
  ∃ block, partHighRead past (loaded mode xor cache) =
    some (if Denotes (crcStored cache) (osCrc32 (cache.drop headerLen)) then 0 else -EBADCRC,
      block)

theorem toNat_sub_le {first byte last : UInt8}
    (between : (decide (first ≤ byte) && decide (byte ≤ last)) = true) :
    (byte - first).toNat ≤ last.toNat - first.toNat := by
  rw [Bool.and_eq_true, decide_eq_true_eq, decide_eq_true_eq] at between
  rw [UInt8.toNat_sub_of_le _ _ between.1]
  exact Nat.sub_le_sub_right (UInt8.le_iff_toNat_le.mp between.2) _

theorem digit_lt {byte : UInt8} {value : Nat} (found : digit byte = some value) : value < 16 := by
  unfold digit at found
  split at found
  · rename_i between
    obtain rfl := Option.some.inj found
    exact Nat.lt_of_le_of_lt (toNat_sub_le between) (by decide)
  split at found
  · rename_i between
    obtain rfl := Option.some.inj found
    exact Nat.add_lt_add_right (Nat.lt_of_le_of_lt (toNat_sub_le between) (by decide : _ < 6)) 10
  split at found
  · rename_i between
    obtain rfl := Option.some.inj found
    exact Nat.add_lt_add_right (Nat.lt_of_le_of_lt (toNat_sub_le between) (by decide : _ < 6)) 10
  · cases found

/-- A number that is smaller than a power of sixteen, with a digit behind it. -/
theorem append_digit_lt {number value length : Nat} (small : number < 16 ^ length)
    (below : value < 16) : number * 16 + value < 16 ^ (length + 1) := by
  rw [Nat.pow_succ]
  omega

/-- The loop over digits, where the number stays in 64 bits. -/
theorem foldlM_digits (digits : ∀ byte ∈ text, (digit byte).isSome = true) {number length : Nat}
    (small : number < 16 ^ length) (fits : length + text.length ≤ 16) :
    text.foldlM (fun number byte => do
      let next ← osDigitchar2int byte
      return (number * 16 + next) % 2 ^ 64) number =
      some (text.foldl (fun number byte => number * 16 + (digit byte).getD 0) number) ∧
      text.foldl (fun number byte => number * 16 + (digit byte).getD 0) number <
        16 ^ (length + text.length) := by
  induction text generalizing number length with
  | nil => exact ⟨rfl, small⟩
  | cons byte text ih =>
      obtain ⟨value, found⟩ := Option.isSome_iff_exists.mp (digits byte (List.mem_cons_self ..))
      have next := append_digit_lt small (digit_lt found)
      rw [List.length_cons] at fits
      have power : 16 ^ (length + 1) ≤ 2 ^ 64 := by
        rw [show (2 : Nat) ^ 64 = 16 ^ 16 by decide]
        exact Nat.pow_le_pow_right (by decide) (by omega)
      have rest := ih (fun other member => digits other (List.mem_cons_of_mem _ member)) next
        (by omega)
      have length_eq : length + 1 + text.length = length + (text.length + 1) := by omega
      rw [length_eq] at rest
      simp only [List.foldlM_cons, osDigitchar2int, found, Option.bind_eq_bind, Option.bind_some,
        Option.pure_def, Nat.mod_eq_of_lt (Nat.lt_of_lt_of_le next power), List.foldl_cons,
        Option.getD_some, List.length_cons]
      exact rest

theorem osDigitstring2number_of_digits (digits : ∀ byte ∈ text, (digit byte).isSome = true)
    (short : text.length ≤ crc32Stringlen) :
    osDigitstring2number text 16 = some (hexNumber text) ∧ hexNumber text < 2 ^ 32 := by
  have bound : 0 + text.length ≤ 8 := by
    rw [Nat.zero_add]
    exact short
  obtain ⟨read, small⟩ := foldlM_digits digits (show 0 < 16 ^ 0 by decide)
    (show 0 + text.length ≤ 16 by omega)
  refine ⟨read, Nat.lt_of_lt_of_le small ?_⟩
  rw [show (2 : Nat) ^ 32 = 16 ^ 8 by decide]
  exact Nat.pow_le_pow_right (by decide) bound

/-- A character that is no digit ends the loop with an abort. -/
theorem osDigitstring2number_of_garbage {byte : UInt8} (member : byte ∈ text)
    (garbage : (digit byte).isSome = false) : osDigitstring2number text 16 = none := by
  have none : digit byte = none := by
    rwa [Option.isSome_eq_false_iff, Option.isNone_iff_eq_none] at garbage
  obtain ⟨front, rest, rfl⟩ := List.append_of_mem member
  rw [osDigitstring2number, List.foldlM_append]
  cases front.foldlM (fun number byte => do
      let next ← osDigitchar2int byte
      return (number * 16 + next) % 2 ^ 64) 0 with
  | none => rfl
  | some number => simp only [List.foldlM_cons, osDigitchar2int, none, Option.bind_eq_bind,
      Option.bind_some, Option.bind_none]

theorem length_crcStored_le (cache : List UInt8) :
    (crcStored cache).length ≤ crc32Stringlen := by
  refine (List.takeWhile_prefix _).length_le.trans ?_
  rw [List.length_take]
  exact Nat.min_le_left ..

theorem partBlockCrcRead_loaded (enough : headerLen ≤ cache.length) :
    partBlockCrcRead (loaded mode xor cache) =
      (osDigitstring2number (crcStored cache) 16).map UInt32.ofNat := by
  have load : Memory.load (loaded mode xor cache).cache 0 crc32Stringlen =
      some (cache.take crc32Stringlen) := by
    refine Memory.load_eq_some_iff.mpr ⟨?_, ?_⟩
    · change 0 + crc32Stringlen ≤ cache.length
      simp only [headerLen] at enough
      omega
    · rfl
  rw [partBlockCrcRead, load]
  simp only [Option.bind_eq_bind, Option.bind_some, Option.pure_def, crcStored]
  cases osDigitstring2number (CStr.ofBuffer (cache.take crc32Stringlen)).bytes 16 with
  | none => rfl
  | some crc => rfl

theorem count_loaded (mode : PartMode) (xor : UInt32) (cache : List UInt8) :
    ¬(loaded mode xor cache).count ≠ 0 := fun some => some rfl

/-- `part_high_read` where it neither asserts nor reads outside the cache. -/
theorem partHighRead_loaded (past : UInt8) (enough : headerLen ≤ cache.length)
    (digits : ∀ byte ∈ crcStored cache, (digit byte).isSome = true) :
    ∃ block, partHighRead past (loaded mode xor cache) =
      some (if Denotes (crcStored cache) (osCrc32 (cache.drop headerLen)) then 0 else -EBADCRC,
        block) := by
  obtain ⟨read, small⟩ := osDigitstring2number_of_digits digits (length_crcStored_le cache)
  have computed : partBlockCrc (loaded mode xor cache) = some (osCrc32 (cache.drop headerLen)) :=
    if_pos enough
  have denotes : Denotes (crcStored cache) (osCrc32 (cache.drop headerLen)) ↔
      UInt32.ofNat (hexNumber (crcStored cache)) = osCrc32 (cache.drop headerLen) := by
    rw [Denotes, and_iff_right digits, ← UInt32.toNat_inj, UInt32.toNat_ofNat_of_lt' small]
  rw [partHighRead, if_neg (count_loaded mode xor cache), partBlockCrcRead_loaded enough, computed,
    read]
  simp only [denotes, Option.map_some, Option.bind_eq_bind, Option.bind_some, Option.pure_def]
  by_cases same : UInt32.ofNat (hexNumber (crcStored cache)) = osCrc32 (cache.drop headerLen)
  · refine ⟨partLineRead past (loaded mode xor cache), ?_⟩
    rw [if_pos same, if_neg (not_not.mpr same)]
  · refine ⟨loaded mode xor cache, ?_⟩
    rw [if_neg same, if_pos same]

/-- `part_high_read` where it asserts or reads outside the cache. -/
theorem partHighRead_loaded_none (past : UInt8)
    (bad : ¬(headerLen ≤ cache.length ∧ ∀ byte ∈ crcStored cache, (digit byte).isSome = true)) :
    partHighRead past (loaded mode xor cache) = none := by
  rw [partHighRead, if_neg (count_loaded mode xor cache)]
  by_cases enough : headerLen ≤ cache.length
  · have garbage : ∃ byte ∈ crcStored cache, (digit byte).isSome = false := by
      by_contra none
      refine bad ⟨enough, fun byte member => ?_⟩
      by_contra other
      exact none ⟨byte, member, Bool.eq_false_iff.mpr other⟩
    obtain ⟨byte, member, other⟩ := garbage
    rw [partBlockCrcRead_loaded enough, osDigitstring2number_of_garbage member other]
    rfl
  · rw [show partBlockCrc (loaded mode xor cache) = none from if_neg enough]
    cases partBlockCrcRead (loaded mode xor cache) with
    | none => rfl
    | some crc => rfl

/-- A cache is reported right exactly if it has room for the CRC and the characters before the
first NUL of its CRC are digits. -/
theorem reports_iff (past : UInt8) (mode : PartMode) (xor : UInt32) (cache : List UInt8) :
    Reports past mode xor cache ↔
      9 ≤ cache.length ∧ ∀ byte ∈ crcStored cache, (digit byte).isSome = true := by
  constructor
  · rintro ⟨block, read⟩
    by_contra bad
    rw [partHighRead_loaded_none past bad] at read
    cases read
  · rintro ⟨enough, digits⟩
    exact partHighRead_loaded past enough digits

/-- An erased partition of sixteen bytes. -/
theorem not_reports_erased : ¬ ∀ past mode xor cache, Reports past mode xor cache := by
  intro reports
  obtain ⟨block, read⟩ := reports 0 .normal 0 (List.replicate 16 255)
  rw [partHighRead_loaded_none] at read
  · cases read
  · rintro ⟨-, digits⟩
    exact absurd (digits 255 (by decide)) (by decide)

end Trunk.Partool
