import Mathlib.Data.List.Basic

/-! # Flash devices

A device is a row of erase blocks. Some of them are bad. Erasing a block sets all its bits, writing
can only clear bits, and both can fail. What is done to a device is kept in a log.
-/

namespace Trunk.Flash

/-- What is done to a device. -/
inductive Event where
  | erase (block : Nat)
  | write (place length : Nat)
  deriving DecidableEq, Repr

/-- A device: `worn` blocks cannot be erased and `weak` ones cannot be written. `edge` is what the
device says of the block behind its last one. -/
structure Device where
  eraseSize : Nat
  count : Nat
  nand : Bool
  bad : Nat → Bool
  edge : Option Bool
  worn : Nat → Bool
  weak : Nat → Bool
  cell : Nat → UInt8
  log : List Event

namespace Device

variable (d : Device)

def size : Nat := d.count * d.eraseSize

/-- Whether a block is bad. Only the blocks of some devices can be bad. -/
def isBad (block : Nat) : Bool := d.nand && d.bad block

/-- What the device says of the block at a place, or an error. -/
def askBad (place : Nat) : Option Bool :=
  if !d.nand then some false
  else if place < d.size then some (d.bad (place / d.eraseSize))
  else if place = d.size then d.edge else none

/-- A block is erased. -/
def erase (start : Nat) : Option Device :=
  let block := start / d.eraseSize
  if start % d.eraseSize = 0 ∧ start < d.size ∧ d.isBad block = false ∧ d.worn block = false then
    some { d with
      cell := fun place =>
        if start ≤ place ∧ place < start + d.eraseSize then 0xff else d.cell place
      log := d.log ++ [.erase block] }
  else none

/-- Bytes are written at a place, as many as there is room for. The number of them is returned, or
an error. -/
def write (place : Nat) (bytes : List UInt8) : Device × Option Nat :=
  if d.size ≤ place ∨ d.weak (place / d.eraseSize) then (d, none)
  else
    let count := min bytes.length (d.size - place)
    ({ d with
      cell := fun at' =>
        if place ≤ at' ∧ at' < place + count then d.cell at' &&& bytes.getD (at' - place) 0
        else d.cell at'
      log := d.log ++ [.write place count] }, some count)

/-- The bytes from a place on, as many as there are. -/
def read (place count : Nat) : List UInt8 :=
  (List.range (min count (d.size - place))).map fun index => d.cell (place + index)

/-- The good blocks in front of a block. -/
def goodBefore (block : Nat) : List Nat := (List.range block).filter fun b => !d.isBad b

/-- The place of a block among the good ones. -/
def rank (block : Nat) : Nat := (d.goodBefore block).length

theorem length_read (place count : Nat) :
    (d.read place count).length = min count (d.size - place) := by
  rw [read, List.length_map, List.length_range]

theorem read_getElem? {place count index : Nat} (inside : place + count ≤ d.size)
    (less : index < count) : (d.read place count)[index]? = some (d.cell (place + index)) := by
  rw [read, Nat.min_eq_left (by omega), List.getElem?_map, List.getElem?_range less]
  rfl

/-- A part of what is read is read from its own place. -/
theorem read_part {place count skip part : Nat} (inside : place + count ≤ d.size)
    (within : skip + part ≤ count) :
    ((d.read place count).drop skip).take part = d.read (place + skip) part := by
  apply List.ext_getElem?
  intro index
  by_cases less : index < part
  · rw [List.getElem?_take_of_lt less, List.getElem?_drop, d.read_getElem? inside (by omega),
      d.read_getElem? (by omega) less, Nat.add_assoc]
  · rw [List.getElem?_eq_none, List.getElem?_eq_none]
    · rw [d.length_read]
      omega
    · rw [List.length_take]
      omega

theorem goodBefore_succ_good {block : Nat} (good : d.isBad block = false) :
    d.goodBefore (block + 1) = d.goodBefore block ++ [block] := by
  simp [goodBefore, List.range_succ, good]

theorem goodBefore_succ_bad {block : Nat} (bad : d.isBad block = true) :
    d.goodBefore (block + 1) = d.goodBefore block := by
  simp [goodBefore, List.range_succ, bad]

theorem rank_succ_good {block : Nat} (good : d.isBad block = false) :
    d.rank (block + 1) = d.rank block + 1 := by
  rw [rank, goodBefore_succ_good d good, List.length_append]
  rfl

theorem rank_succ_bad {block : Nat} (bad : d.isBad block = true) :
    d.rank (block + 1) = d.rank block := by
  rw [rank, goodBefore_succ_bad d bad]
  rfl

theorem rank_le (block : Nat) : d.rank block ≤ block := by
  have most := List.length_filter_le (fun b => !d.isBad b) (List.range block)
  rw [List.length_range] at most
  exact most

theorem rank_mono {first second : Nat} (order : first ≤ second) : d.rank first ≤ d.rank second := by
  induction order with
  | refl => exact Nat.le_refl _
  | @step second _ ih =>
      cases good : d.isBad second with
      | true => exact (d.rank_succ_bad good).symm ▸ ih
      | false => exact (d.rank_succ_good good).symm ▸ Nat.le_succ_of_le ih

/-- A good block has fewer good blocks in front of it than any block behind it. -/
theorem rank_lt_of_good {block later : Nat} (good : d.isBad block = false) (order : block < later) :
    d.rank block < d.rank later := by
  have next := d.rank_mono order
  rw [d.rank_succ_good good] at next
  exact next

theorem goodBefore_take {first second : Nat} (order : first ≤ second) :
    (d.goodBefore second).take (d.rank first) = d.goodBefore first := by
  obtain ⟨more, rfl⟩ := Nat.exists_eq_add_of_le order
  rw [goodBefore, List.range_add, List.filter_append]
  exact List.take_left

end Device

end Trunk.Flash
