import Mathlib.Tactic.Ring
import Mathlib.Tactic.LinearCombination

/-! # The lowest bit in which two numbers differ

Two numbers split at a bit when they agree in all bits below it and differ in it
(`Trunk.LowestBit.Splits`): their difference is an odd multiple of its weight
(`Trunk.LowestBit.splits_iff_exists`). A step that adds, to a number, the number shifted to the right
moves the bit down by the shift, and one that takes the exclusive or with the number shifted to the
left keeps it. Machine words are the numbers up to a multiple of a power of two, which leaves the
bits below it as they are.
-/

namespace Trunk.LowestBit

variable {k places width x y : Nat}

/-- The numbers agree below a bit, and differ in it. -/
structure Splits (k x y : Nat) : Prop where
  below : ∀ i < k, x.testBit i = y.testBit i
  here : x.testBit k ≠ y.testBit k

theorem Splits.ne (splits : Splits k x y) : x ≠ y := by
  intro same
  exact splits.here (by rw [same])

/-- There is a lowest bit in which numbers differ. -/
theorem exists_splits (ne : x ≠ y) : ∃ k, Splits k x y := by
  have differ : ∃ k, x.testBit k ≠ y.testBit k := by
    by_contra none
    push Not at none
    exact ne (Nat.eq_of_testBit_eq none)
  classical
  refine ⟨Nat.find differ, fun i inside => ?_, Nat.find_spec differ⟩
  have same := Nat.find_min differ inside
  exact not_not.mp same

theorem Splits.mod_two (splits : Splits k x y) (positive : 0 < k) : x % 2 = y % 2 := by
  have lowest := splits.below 0 positive
  rw [Nat.testBit_zero, Nat.testBit_zero, decide_eq_decide] at lowest
  omega

/-- Agreement below a bit, in remainders. -/
theorem below_iff : (∀ i < k, x.testBit i = y.testBit i) ↔ x % 2 ^ k = y % 2 ^ k := by
  constructor
  · intro below
    apply Nat.eq_of_testBit_eq
    intro i
    rw [Nat.testBit_mod_two_pow, Nat.testBit_mod_two_pow]
    by_cases inside : i < k
    · rw [below i inside]
    · rw [decide_eq_false inside, Bool.false_and, Bool.false_and]
  · intro same i inside
    have bit : (x % 2 ^ k).testBit i = (y % 2 ^ k).testBit i := by rw [same]
    rw [Nat.testBit_mod_two_pow, Nat.testBit_mod_two_pow, decide_eq_true inside, Bool.true_and,
      Bool.true_and] at bit
    exact bit

/-- The numbers split at a bit where their difference is an odd multiple of its weight. -/
theorem splits_iff_exists : Splits k x y ↔ ∃ m : Int, (x : Int) - y = 2 ^ k * (2 * m + 1) := by
  have left : (2 : Int) ^ k * (x / 2 ^ k : Nat) + (x % 2 ^ k : Nat) = x := by
    exact_mod_cast Nat.div_add_mod x (2 ^ k)
  have right : (2 : Int) ^ k * (y / 2 ^ k : Nat) + (y % 2 ^ k : Nat) = y := by
    exact_mod_cast Nat.div_add_mod y (2 ^ k)
  constructor
  · rintro ⟨below, here⟩
    rw [below_iff] at below
    rw [Nat.testBit_eq_decide_div_mod_eq, Nat.testBit_eq_decide_div_mod_eq, Ne,
      decide_eq_decide] at here
    have odd : ∃ m : Int, ((x / 2 ^ k : Nat) : Int) - (y / 2 ^ k : Nat) = 2 * m + 1 :=
      ⟨(((x / 2 ^ k : Nat) : Int) - (y / 2 ^ k : Nat) - 1) / 2, by omega⟩
    obtain ⟨m, odd⟩ := odd
    rw [below] at left
    exact ⟨m, by linear_combination right - left + 2 ^ k * odd⟩
  · rintro ⟨m, difference⟩
    have power : (0 : Int) < 2 ^ k := Int.pow_pos (by omega)
    have step : (x : Int) = y + (2 * m + 1) * 2 ^ k := by linear_combination difference
    have below : x % 2 ^ k = y % 2 ^ k := by
      have same : (x : Int) % 2 ^ k = y % 2 ^ k := by rw [step, Int.add_mul_emod_self_right]
      exact_mod_cast same
    refine ⟨below_iff.mpr below, ?_⟩
    have quotient : ((x / 2 ^ k : Nat) : Int) = (y / 2 ^ k : Nat) + (2 * m + 1) := by
      push_cast
      rw [step, Int.add_mul_ediv_right _ _ power.ne']
    rw [Nat.testBit_eq_decide_div_mod_eq, Nat.testBit_eq_decide_div_mod_eq, Ne, decide_eq_decide]
    omega

/-- The numbers up to a multiple of a power of two. -/
theorem Splits.mod (splits : Splits k x y) (small : k < width) :
    Splits k (x % 2 ^ width) (y % 2 ^ width) := by
  constructor
  · intro i inside
    rw [Nat.testBit_mod_two_pow, Nat.testBit_mod_two_pow, splits.below i inside]
  · rw [Nat.testBit_mod_two_pow, Nat.testBit_mod_two_pow, decide_eq_true small, Bool.true_and,
      Bool.true_and]
    exact splits.here

theorem Splits.add_left (splits : Splits k x y) (a : Nat) : Splits k (a + x) (a + y) := by
  obtain ⟨m, difference⟩ := splits_iff_exists.mp splits
  rw [splits_iff_exists]
  refine ⟨m, ?_⟩
  push_cast
  linear_combination difference

theorem Splits.xor_left (splits : Splits k x y) (a : Nat) : Splits k (a ^^^ x) (a ^^^ y) := by
  constructor
  · intro i inside
    rw [Nat.testBit_xor, Nat.testBit_xor, splits.below i inside]
  · rw [Nat.testBit_xor, Nat.testBit_xor]
    intro same
    exact splits.here (Bool.xor_right_inj.mp same)

/-- The numbers, multiplied by a power of two. -/
theorem Splits.shift (splits : Splits k x y) (places : Nat) :
    Splits (k + places) (x <<< places) (y <<< places) := by
  obtain ⟨m, difference⟩ := splits_iff_exists.mp splits
  rw [splits_iff_exists, Nat.shiftLeft_eq, Nat.shiftLeft_eq]
  refine ⟨m, ?_⟩
  push_cast
  rw [pow_add]
  linear_combination 2 ^ places * difference

/-- The exclusive or with the number shifted to the left. -/
theorem Splits.xor_shift (splits : Splits k x y) (positive : 0 < places) :
    Splits k (x ^^^ x <<< places) (y ^^^ y <<< places) := by
  have lower : ∀ i ≤ k, (x <<< places).testBit i = (y <<< places).testBit i := by
    intro i most
    rw [Nat.testBit_shiftLeft, Nat.testBit_shiftLeft]
    by_cases reached : places ≤ i
    · rw [splits.below (i - places) (by omega)]
    · rw [decide_eq_false reached, Bool.false_and, Bool.false_and]
  constructor
  · intro i inside
    rw [Nat.testBit_xor, Nat.testBit_xor, splits.below i inside, lower i inside.le]
  · rw [Nat.testBit_xor, Nat.testBit_xor, lower k (Nat.le_refl k)]
    intro same
    exact splits.here (Bool.xor_left_inj.mp same)

/-- The sum with the number shifted to the right. -/
theorem Splits.add_shift (splits : Splits (k + places) x y) (positive : 0 < places) :
    Splits k (x + x >>> places) (y + y >>> places) := by
  obtain ⟨m, difference⟩ := splits_iff_exists.mp splits
  have power : (0 : Int) < 2 ^ places := Int.pow_pos (by omega)
  have step : (x : Int) = y + 2 ^ k * (2 * m + 1) * 2 ^ places := by
    rw [pow_add] at difference
    linear_combination difference
  have quotient : ((x / 2 ^ places : Nat) : Int) = (y / 2 ^ places : Nat) + 2 ^ k * (2 * m + 1) := by
    push_cast
    rw [step, Int.add_mul_ediv_right _ _ power.ne']
  -- An odd multiple of one more than an even power is odd.
  obtain ⟨half, even⟩ : ∃ half : Int, (2 : Int) ^ places = 2 * half :=
    ⟨2 ^ (places - 1), by rw [← pow_succ', Nat.sub_add_cancel positive]⟩
  rw [splits_iff_exists, Nat.shiftRight_eq_div_pow, Nat.shiftRight_eq_div_pow]
  refine ⟨m + half * (2 * m + 1), ?_⟩
  push_cast at quotient ⊢
  rw [even] at step
  linear_combination step + quotient

end Trunk.LowestBit
