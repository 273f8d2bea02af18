import Trunk.Foundation.Memory
import Trunk.Foundation.Subnet
import Trunk.Mtd.Single

/-! # Headers in an erase block

What the variants of `mtd_fixtrx` share: the erase block with the header is found with a mask, read as
a whole, and written as a whole after it is erased.
-/

namespace Trunk.Mtd

open Flash Memory Network

/-- How the program ends: it returns, it has an error, or an access is outside its buffer; or a loop
goes on for ever. -/
inductive Ended where
  | returned
  | exit
  | outside
  | stuck
  deriving DecidableEq, Repr

/-- How the program ends, the device, and what was read from it. -/
structure Outcome where
  ended : Ended
  dev : Device
  reads : List (Nat × Nat)

/-- A range of the buffer. -/
def readRange (buf : List UInt8) (place length : Nat) : Except Ended (List UInt8) :=
  match load buf place length with
  | some bytes => .ok bytes
  | none => .error .outside

/-- A range of the buffer is written. -/
def writeRange (buf : List UInt8) (place : Nat) (content : List UInt8) :
    Except Ended (List UInt8) :=
  match store buf place content with
  | some buf => .ok buf
  | none => .error .outside

/-- A range of bytes. -/
def range (buf : List UInt8) (place length : Nat) : List UInt8 := (buf.drop place).take length

/-- `offset & ~(erasesize - 1)`, with a `size_t` of `width` bits. -/
def blockOffset (width erasesize offset : Nat) : Nat :=
  offset &&& (2 ^ width - 1 - (erasesize + 2 ^ width - 1) % 2 ^ width)

/-- `mtd_erase_block` and `pwrite`. -/
def rewriteBlock (d : Device) (place : Nat) (buf : List UInt8) : Ended × Device :=
  match d.erase place with
  | none => (.exit, d)
  | some d =>
      match d.write place buf with
      | (d, some count) => if count = buf.length then (.returned, d) else (.exit, d)
      | (d, none) => (.exit, d)

section Buffers

variable {buf content : List UInt8} {place length : Nat}

theorem readRange_inside (inside : place + length ≤ buf.length) :
    readRange buf place length = .ok (range buf place length) := by
  rw [readRange, load_eq_some_iff.mpr ⟨inside, rfl⟩]
  rfl

theorem length_range (inside : place + length ≤ buf.length) :
    (range buf place length).length = length := by
  rw [range, List.length_take, List.length_drop]
  omega

end Buffers

section Blocks

variable {d : Device} {width offset count block : Nat} {bytes : List UInt8}

/-- With an erase size of zero, all offsets are in the block at zero. -/
theorem blockOffset_zero (width offset : Nat) : blockOffset width 0 offset = 0 := by
  have small : 2 ^ width - 1 < 2 ^ width := Nat.sub_lt (Nat.two_pow_pos width) Nat.one_pos
  rw [blockOffset, Nat.zero_add, Nat.mod_eq_of_lt small, Nat.sub_self, Nat.and_zero]

/-- The block of an offset starts at a multiple of the erase size. -/
theorem blockOffset_eq (few : count < width) (small : offset < 2 ^ width) :
    blockOffset width (2 ^ count) offset = offset / 2 ^ count * 2 ^ count := by
  have positive := Nat.two_pow_pos count
  have less := Nat.pow_lt_pow_right (by decide : 1 < 2) few
  have shape : 2 ^ count + 2 ^ width - 1 = (2 ^ count - 1) + 2 ^ width := by omega
  rw [blockOffset, shape, Nat.add_mod_right, Nat.mod_eq_of_lt (by omega)]
  exact Subnet.and_mask count small

/-- A block can be erased and written. -/
structure Usable (d : Device) (block : Nat) : Prop where
  positive : 0 < d.eraseSize
  inside : block < d.count
  good : d.isBad block = false
  fresh : d.worn block = false
  strong : d.weak block = false

theorem Usable.room (usable : Usable d block) : start d block + d.eraseSize ≤ d.size := by
  rw [start, ← Nat.succ_mul]
  exact Nat.mul_le_mul_right _ usable.inside

/-- A block that can be written is rewritten. -/
theorem rewriteBlock_usable (usable : Usable d block) (full : bytes.length = d.eraseSize) :
    rewriteBlock d (start d block) bytes = (.returned, stored d block bytes) := by
  unfold rewriteBlock
  rw [erase_start usable.inside usable.positive usable.good usable.fresh]
  dsimp only
  rw [write_erased usable.inside usable.positive full usable.strong]
  dsimp only
  rw [if_pos full.symm]

theorem Usable.stored (usable : Usable d block) : Usable (stored d block bytes) block where
  positive := usable.positive
  inside := usable.inside
  good := usable.good
  fresh := usable.fresh
  strong := usable.strong

/-- A block that was rewritten holds what was written. -/
theorem read_stored (usable : Usable d block) (full : bytes.length = d.eraseSize) :
    (Mtd.stored d block bytes).read (start d block) d.eraseSize = bytes := by
  have room : start d block + d.eraseSize ≤ (Mtd.stored d block bytes).size := usable.room
  apply List.ext_getElem?
  intro index
  by_cases less : index < d.eraseSize
  · rw [Device.read_getElem? _ room less]
    change some (if _ then _ else _) = _
    rw [if_pos (by omega), Nat.add_sub_cancel_left, List.getD_eq_getElem?_getD,
      List.getElem?_eq_getElem (by omega)]
    rfl
  · rw [List.getElem?_eq_none, List.getElem?_eq_none]
    · omega
    · rw [Device.length_read]
      omega

/-- A range of a block that was rewritten. -/
theorem read_stored_part (usable : Usable d block) (full : bytes.length = d.eraseSize)
    {skip part : Nat} (within : skip + part ≤ d.eraseSize) :
    (Mtd.stored d block bytes).read (start d block + skip) part = (bytes.drop skip).take part := by
  have room : start d block + d.eraseSize ≤ (Mtd.stored d block bytes).size := usable.room
  rw [← Device.read_part _ room within, read_stored usable full]

/-- Where a byte of a block that was rewritten is not another one, it is as before. -/
theorem cell_stored (usable : Usable d block) {place : Nat}
    (same : start d block ≤ place → place < start d block + d.eraseSize →
      bytes[place - start d block]? =
        (d.read (start d block) d.eraseSize)[place - start d block]?) :
    (Mtd.stored d block bytes).cell place = d.cell place := by
  change (if _ then _ else _) = _
  split
  · rename_i within
    have equal := same within.1 within.2
    rw [d.read_getElem? usable.room (by omega), Nat.add_sub_cancel' within.1] at equal
    rw [List.getD_eq_getElem?_getD, equal]
    rfl
  · rfl

/-- A header of some size is in an erase block of a device, whose size is an `int`. -/
structure InBlock (width : Nat) (d : Device) (offset size : Nat) : Prop where
  wide : 32 ≤ width
  power : ∃ count, d.eraseSize = 2 ^ count
  small : d.size < 2 ^ 31
  usable : Usable d (offset / d.eraseSize)
  room : offset % d.eraseSize + size ≤ d.eraseSize

variable {size : Nat}

theorem InBlock.start_add (_ : InBlock width d offset size) :
    start d (offset / d.eraseSize) + offset % d.eraseSize = offset :=
  Nat.div_add_mod' _ _

theorem InBlock.size_lt (inBlock : InBlock width d offset size) : d.size < 2 ^ width :=
  Nat.lt_of_lt_of_le inBlock.small
    (Nat.pow_le_pow_right (by decide) (Nat.le_trans (by decide) inBlock.wide))

/-- The mask finds the block. -/
theorem InBlock.blockOffset (inBlock : InBlock width d offset size) :
    blockOffset width d.eraseSize offset = start d (offset / d.eraseSize) := by
  obtain ⟨count, power⟩ := inBlock.power
  have positive := inBlock.usable.positive
  have room := inBlock.usable.room
  have less := Nat.mod_lt offset positive
  have whole := inBlock.start_add
  have large := inBlock.size_lt
  have few : count < width := by
    rw [← Nat.pow_lt_pow_iff_right (by decide : 1 < 2), ← power]
    omega
  rw [power, blockOffset_eq few (by omega), start, power]

/-- The block is in front of the end of the device. -/
theorem InBlock.not_beyond (inBlock : InBlock width d offset size) :
    ¬d.size < (start d (offset / d.eraseSize) + d.eraseSize) % 2 ^ width := by
  have room := inBlock.usable.room
  have large := inBlock.size_lt
  rw [Nat.mod_eq_of_lt (by omega)]
  omega

/-- The block is read as a whole. -/
theorem Usable.length_read (usable : Usable d block) :
    (d.read (start d block) d.eraseSize).length = d.eraseSize := by
  have room := usable.room
  rw [Device.length_read]
  omega

/-- A part of the block is read from its own place. -/
theorem InBlock.read_part (inBlock : InBlock width d offset size) {skip part : Nat}
    (within : offset % d.eraseSize + skip + part ≤ d.eraseSize) :
    ((d.read (start d (offset / d.eraseSize)) d.eraseSize).drop
        (offset % d.eraseSize + skip)).take part = d.read (offset + skip) part := by
  have whole := inBlock.start_add
  rw [d.read_part inBlock.usable.room within, ← Nat.add_assoc, whole]

theorem InBlock.stored (inBlock : InBlock width d offset size) (bytes : List UInt8) :
    InBlock width (stored d (offset / d.eraseSize) bytes) offset size where
  wide := inBlock.wide
  power := inBlock.power
  small := inBlock.small
  usable := inBlock.usable.stored
  room := inBlock.room

/-- A part of the block that was rewritten. -/
theorem InBlock.read_stored (inBlock : InBlock width d offset size) {bytes : List UInt8}
    (full : bytes.length = d.eraseSize) {skip part : Nat}
    (within : offset % d.eraseSize + skip + part ≤ d.eraseSize) :
    (Mtd.stored d (offset / d.eraseSize) bytes).read (offset + skip) part =
      (bytes.drop (offset % d.eraseSize + skip)).take part := by
  have whole := inBlock.start_add
  rw [← read_stored_part inBlock.usable full within, ← Nat.add_assoc, whole]

end Blocks

end Trunk.Mtd
