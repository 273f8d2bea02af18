import Mathlib.Algebra.Group.Nat.Defs
import Mathlib.Data.Nat.Bitwise
import Mathlib.Order.Bounds.Basic

/-! # Blocks of addresses

The addresses of a width that share their first bits with one (`Trunk.Subnet.block`). A block is a
range, from its lowest to its highest address, and one block is part of another exactly if it
shares more bits and the address is in the other (`Trunk.Subnet.block_subset_iff`).
-/

namespace Trunk.Subnet

variable {width length length' address address' : Nat}

/-- The addresses that share the first bits of one. -/
def block (width length address : Nat) : Set Nat :=
  { other | other < 2 ^ width ∧ other / 2 ^ (width - length) = address / 2 ^ (width - length) }

/-- The lowest address of a block. -/
def lowest (width length address : Nat) : Nat :=
  address / 2 ^ (width - length) * 2 ^ (width - length)

/-- The highest address of a block. -/
def highest (width length address : Nat) : Nat :=
  lowest width length address + (2 ^ (width - length) - 1)

theorem mem_block {other : Nat} :
    other ∈ block width length address ↔
      other < 2 ^ width ∧ other / 2 ^ (width - length) = address / 2 ^ (width - length) := Iff.rfl

theorem lowest_le (width length address : Nat) : lowest width length address ≤ address :=
  Nat.div_mul_le_self _ _

theorem lowest_lowest (width length address : Nat) :
    lowest width length (lowest width length address) = lowest width length address := by
  unfold lowest
  rw [Nat.mul_div_cancel _ (Nat.two_pow_pos _)]

/-- The highest address has the width of the block. -/
theorem highest_lt (length : Nat) (small : address < 2 ^ width) : highest width length address < 2 ^ width := by
  have positive := Nat.two_pow_pos (width - length)
  have whole : 2 ^ (width - (width - length)) * 2 ^ (width - length) = 2 ^ width := by
    rw [← Nat.pow_add, Nat.sub_add_cancel (Nat.sub_le width length)]
  have quotient : address / 2 ^ (width - length) < 2 ^ (width - (width - length)) := by
    rw [Nat.div_lt_iff_lt_mul positive, whole]
    exact small
  have next := Nat.mul_le_mul_right (2 ^ (width - length)) (Nat.succ_le_of_lt quotient)
  rw [Nat.succ_mul, whole] at next
  unfold highest lowest
  omega

/-- A block is a range. -/
theorem mem_block_iff_range (small : address < 2 ^ width) {other : Nat} :
    other ∈ block width length address ↔
      lowest width length address ≤ other ∧ other ≤ highest width length address := by
  have positive := Nat.two_pow_pos (width - length)
  have bound := highest_lt length small
  rw [mem_block, Nat.div_eq_iff positive]
  unfold highest lowest at *
  omega

theorem isLeast_lowest (length : Nat) (small : address < 2 ^ width) :
    IsLeast (block width length address) (lowest width length address) := by
  refine ⟨(mem_block_iff_range small).mpr ⟨Nat.le_refl _, Nat.le_add_right _ _⟩, ?_⟩
  intro other member
  exact ((mem_block_iff_range small).mp member).1

theorem isGreatest_highest (length : Nat) (small : address < 2 ^ width) :
    IsGreatest (block width length address) (highest width length address) := by
  refine ⟨(mem_block_iff_range small).mpr ⟨Nat.le_add_right _ _, Nat.le_refl _⟩, ?_⟩
  intro other member
  exact ((mem_block_iff_range small).mp member).2

/-- A block is part of another exactly if it shares as many bits and its address is in the
other. -/
theorem block_subset_iff (small : address < 2 ^ width) (small' : address' < 2 ^ width)
    (within : length ≤ width) (within' : length' ≤ width) :
    block width length' address' ⊆ block width length address ↔
      length ≤ length' ∧
        address' / 2 ^ (width - length) = address / 2 ^ (width - length) := by
  constructor
  · intro subset
    have own : address' ∈ block width length' address' := ⟨small', rfl⟩
    refine ⟨?_, (subset own).2⟩
    by_contra fewer
    -- the block of fewer bits has two addresses that differ in a bit the other shares
    have low := ((mem_block_iff_range small).mp
      (subset (isLeast_lowest length' small').1))
    have high := ((mem_block_iff_range small).mp
      (subset (isGreatest_highest length' small').1))
    have wide : 2 ^ (width - length) < 2 ^ (width - length') :=
      Nat.pow_lt_pow_right (by decide) (by omega)
    have positive := Nat.two_pow_pos (width - length)
    unfold highest at high low
    omega
  · intro both other member
    obtain ⟨longer, shared⟩ := both
    have split : 2 ^ (width - length) = 2 ^ (width - length') * 2 ^ (length' - length) := by
      rw [← Nat.pow_add]
      congr 1
      omega
    refine ⟨member.1, ?_⟩
    rw [← shared, split, ← Nat.div_div_eq_div_mul, member.2, Nat.div_div_eq_div_mul]

/-- The bits that are not of the lowest ones. -/
theorem testBit_clear (value count place : Nat) :
    (value / 2 ^ count * 2 ^ count).testBit place = (decide (count ≤ place) && value.testBit place) := by
  rw [← Nat.shiftRight_eq_div_pow, ← Nat.shiftLeft_eq, Nat.testBit_shiftLeft,
    Nat.testBit_shiftRight]
  by_cases above : count ≤ place
  · rw [Nat.add_sub_cancel' above]
  · rw [decide_eq_false above, Bool.false_and, Bool.false_and]

/-- A mask of the highest bits clears the others. -/
theorem and_mask (count : Nat) (small : address < 2 ^ width) :
    address &&& (2 ^ width - 1 - (2 ^ count - 1)) = address / 2 ^ count * 2 ^ count := by
  apply Nat.eq_of_testBit_eq
  intro place
  rw [Nat.testBit_and, testBit_clear, Bool.and_comm]
  by_cases inside : place < width
  · by_cases fits : count ≤ width
    · have bound : 2 ^ count - 1 < 2 ^ width := by
        have order := Nat.pow_le_pow_right Nat.two_pos fits
        have positive := Nat.two_pow_pos count
        omega
      have shape : 2 ^ width - 1 - (2 ^ count - 1) = 2 ^ width - ((2 ^ count - 1) + 1) := by omega
      rw [shape, Nat.testBit_two_pow_sub_succ bound, decide_eq_true inside, Bool.true_and,
        Nat.testBit_two_pow_sub_one, ← decide_not]
      congr 1
      exact decide_eq_decide.mpr Nat.not_lt
    · have order := Nat.pow_le_pow_right Nat.two_pos (Nat.le_of_not_le fits)
      have none : 2 ^ width - 1 - (2 ^ count - 1) = 0 := by omega
      rw [none, Nat.zero_testBit, decide_eq_false (by omega)]
  · have above := Nat.pow_le_pow_right Nat.two_pos (Nat.le_of_not_lt inside)
    rw [Nat.testBit_lt_two_pow (small.trans_le above), Bool.and_false, Bool.and_false]

/-- A mask of the lowest bits sets them. -/
theorem or_mask (address count : Nat) :
    address ||| (2 ^ count - 1) = address / 2 ^ count * 2 ^ count + (2 ^ count - 1) := by
  have below : 2 ^ count - 1 < 2 ^ count := Nat.sub_lt (Nat.two_pow_pos count) Nat.one_pos
  rw [← Nat.shiftLeft_eq, Nat.shiftLeft_add_eq_or_of_lt below, Nat.shiftLeft_eq]
  apply Nat.eq_of_testBit_eq
  intro place
  rw [Nat.testBit_or, Nat.testBit_or, testBit_clear, Nat.testBit_two_pow_sub_one]
  by_cases low : place < count
  · rw [decide_eq_true low, Bool.or_true, Bool.or_true]
  · rw [decide_eq_true (Nat.le_of_not_lt low), Bool.true_and]

/-- Addresses are masked alike exactly if they share the bits of the mask. -/
theorem clear_eq_iff {count first second : Nat} :
    first / 2 ^ count * 2 ^ count = second / 2 ^ count * 2 ^ count ↔
      first / 2 ^ count = second / 2 ^ count :=
  Nat.mul_left_inj (Nat.two_pow_pos count).ne'

end Trunk.Subnet
