import Trunk.Partool.Block

/-! # Raw access to the cache

`part_block_read` and `part_block_write` copy between a buffer and the cache of a block. Their check
adds the offset and the size in 32 bits. So it lets a range through that ends outside the cache
exactly if the sum wraps (`Trunk.Partool.guarded_iff`).
-/

namespace Trunk.Partool

variable {block : PartBlock} {offset size : UInt32}

/-- `part_var_rw_check`, with pointers that are not `NULL`. The `int` that the offset becomes is
compared as an unsigned number again, and an unsigned size is never negative. -/
def partVarRwCheck (block : PartBlock) (offset size : UInt32) : Ret :=
  if block.size = 0 then .assert (-EKEYBAD)
  else if block.size ≤ offset.toNat then .assert (-EINVAL1)
  else if block.size < (offset + size).toNat then .assert (-EINVAL4)
  else .code 0

/-- A size as the `int` that is returned. -/
def intOf (size : UInt32) : Int := (size.toNat : Int).bmod (2 ^ 32)

/-- `part_block_read`: what it returns, and the bytes that it copies to the buffer. -/
def partBlockRead (block : PartBlock) (offset size : UInt32) : Option (Ret × List UInt8) :=
  if (partVarRwCheck block offset size).Ok then
    (Memory.load block.cache offset.toNat size.toNat).map fun bytes => (.code (intOf size), bytes)
  else some (partVarRwCheck block offset size, [])

/-- `part_block_write`: what it returns, and the block. `buf` is the memory at the buffer. -/
def partBlockWrite (block : PartBlock) (offset : UInt32) (buf : Nat → UInt8) (size : UInt32) :
    Option (Ret × PartBlock) :=
  if (partVarRwCheck block offset size).Ok then
    (Memory.store block.cache offset.toNat ((List.range size.toNat).map buf)).map fun cache =>
      (.code (intOf size), { block with cache := cache })
  else some (partVarRwCheck block offset size, block)

/-- The check accepts only ranges in the cache, and no call touches a byte outside it. -/
structure Guarded (block : PartBlock) (offset size : UInt32) : Prop where
  check : (partVarRwCheck block offset size).Ok → offset.toNat + size.toNat ≤ block.size
  read : partBlockRead block offset size ≠ none
  write : ∀ buf, partBlockWrite block offset buf size ≠ none

theorem partVarRwCheck_ok_iff : (partVarRwCheck block offset size).Ok ↔
    offset.toNat < block.size ∧ (offset.toNat + size.toNat) % 2 ^ 32 ≤ block.size := by
  rw [partVarRwCheck, UInt32.toNat_add, Ret.Ok]
  split_ifs with empty behind outside
  · simp only [false_iff, not_and]
    omega
  · simp only [false_iff, not_and]
    omega
  · simp only [false_iff, not_and]
    omega
  · exact iff_of_true rfl ⟨Nat.lt_of_not_le behind, Nat.le_of_not_lt outside⟩

/-- A call stays in the cache exactly if the range that the check accepts does. -/
theorem guarded_iff_check : Guarded block offset size ↔
    ((partVarRwCheck block offset size).Ok → offset.toNat + size.toNat ≤ block.size) := by
  constructor
  · exact Guarded.check
  · intro inside
    refine ⟨inside, ?_, ?_⟩
    · rw [partBlockRead]
      split
      · rename_i ok
        rw [Memory.load_eq_some_iff.mpr ⟨inside ok, rfl⟩]
        exact Option.some_ne_none _
      · exact Option.some_ne_none _
    · intro buf
      rw [partBlockWrite]
      split
      · rename_i ok
        have length : ((List.range size.toNat).map buf).length = size.toNat := by
          rw [List.length_map, List.length_range]
        obtain ⟨cache, stored⟩ : ∃ cache, Memory.store block.cache offset.toNat
            ((List.range size.toNat).map buf) = some cache := by
          apply Memory.store_isSome
          rw [length]
          exact inside ok
        rw [stored]
        exact Option.some_ne_none _
      · exact Option.some_ne_none _

/-- Whatever the offset and the size, access to a block is guarded exactly if the offset is outside
the block or the sum with the size does not wrap. -/
theorem guarded_iff (block : PartBlock) (offset size : UInt32) (counted : block.size < 2 ^ 32) :
    Guarded block offset size ↔
      block.size ≤ offset.toNat ∨ offset.toNat + size.toNat < 2 ^ 32 := by
  have offsetSmall := offset.toNat_lt
  have sizeSmall := size.toNat_lt
  rw [guarded_iff_check, partVarRwCheck_ok_iff]
  constructor
  · intro inside
    by_contra wraps
    have accepted := inside ⟨by omega, by omega⟩
    omega
  · rintro kept ⟨below, fits⟩
    omega

/-- A block of eight bytes. -/
def eightBytes : PartBlock := partBlockNew .empty 8 0

theorem guarded_iff_eightBytes :
    Guarded eightBytes 4 4 ↔ eightBytes.size ≤ 4 ∨ 4 + 4 < 2 ^ 32 :=
  guarded_iff eightBytes 4 4 (by decide)

/-- The check accepts all but four of the bytes that 32 bits can address. -/
theorem not_guarded_eightBytes : ¬ Guarded eightBytes 4 0xfffffffc := by
  intro guarded
  have inside := guarded.check (by decide)
  exact absurd inside (by decide)

end Trunk.Partool
