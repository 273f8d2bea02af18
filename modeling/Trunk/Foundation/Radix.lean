import Mathlib.Data.Nat.ModEq
import Mathlib.Algebra.Order.Ring.Nat
import Mathlib.Tactic.Ring

/-! # Positions of hierarchical radix wheels

A clock with one wheel for each digit of a radix advances the wheel of digit
`level` once every `base ^ level` time units, at the multiples of `base ^ level`,
and then shows the digit of the time it reached (`Trunk.Radix.Shows`). Something
that is due after a delay is filed on the wheel of the delay's leading digit, as
many positions ahead as that digit says. The wheel shows that position after the
filing and not after the due time (`Trunk.Radix.shows_filed`), which is what makes
such a clock neither early nor late.
-/

namespace Trunk.Radix

variable {base level position time : Nat}

/-- At `time` the wheel of digit `level` has just advanced to `position`. -/
def Shows (base level position time : Nat) : Prop :=
  time % base ^ (level + 1) = position * base ^ level

/-- A multiple of the wheel's period shows its own digit. -/
theorem shows_mul (base level quotient : Nat) :
    Shows base level (quotient % base) (quotient * base ^ level) := by
  unfold Shows
  rw [pow_succ, mul_comm (base ^ level) base, Nat.mul_mod_mul_right]

/-- A wheel only advances at multiples of its period. -/
theorem Shows.dvd (shown : Shows base level position time) : base ^ level ∣ time := by
  have split := Nat.div_add_mod time (base ^ (level + 1))
  rw [shown] at split
  rw [← split]
  refine Nat.dvd_add ?_ (Dvd.intro_left position rfl)
  exact Dvd.dvd.mul_right (pow_dvd_pow base (Nat.le_succ level)) _

/-- The position shown is the digit of the time. -/
theorem Shows.position_eq (positive : 0 < base) (shown : Shows base level position time) :
    position = time / base ^ level % base := by
  have power : 0 < base ^ level := Nat.pow_pos positive
  have digit : time % base ^ (level + 1) / base ^ level = time / base ^ level % base := by
    rw [pow_succ]
    exact Nat.mod_mul_right_div_self time (base ^ level) base
  rw [← digit, shown, Nat.mul_div_cancel _ power]

/-- Filing a delay `delay` at `time` on the wheel `level`, as many positions ahead
as the delay has periods: the wheel next shows that position after `time` and no
later than `time + delay`. -/
theorem shows_filed (positive : 0 < base) {delay : Nat} (ahead : 0 < delay / base ^ level) :
    ∃ visit, time < visit ∧ visit ≤ time + delay ∧
      Shows base level ((time / base ^ level + delay / base ^ level) % base) visit := by
  have power : 0 < base ^ level := Nat.pow_pos positive
  refine ⟨(time / base ^ level + delay / base ^ level) * base ^ level, ?_, ?_, shows_mul ..⟩
  · calc time < (time / base ^ level + 1) * base ^ level :=
          Nat.lt_mul_of_div_lt (Nat.lt_succ_self _) power
      _ ≤ _ := Nat.mul_le_mul_right _ (Nat.add_le_add_left ahead _)
  · rw [add_mul]
    exact Nat.add_le_add (Nat.div_mul_le_self _ _) (Nat.div_mul_le_self _ _)

/-- The digit of the next time unit: it moves by one exactly when the wheel's
period divides the new time. -/
theorem digit_succ (base level time : Nat) :
    (time + 1) / base ^ level % base =
      if base ^ level ∣ time + 1 then (time / base ^ level % base + 1) % base
      else time / base ^ level % base := by
  rw [Nat.succ_div]
  split
  · rw [Nat.mod_add_mod]
  · rw [Nat.add_zero]

/-- When the period of one wheel divides the time and it shows zero, so does the
period of the next wheel. -/
theorem dvd_succ_of_digit_zero (divides : base ^ level ∣ time)
    (zero : time / base ^ level % base = 0) : base ^ (level + 1) ∣ time := by
  obtain ⟨quotient, rfl⟩ := divides
  rcases Nat.eq_zero_or_pos (base ^ level) with none | positive
  · simp only [none, zero_mul, dvd_zero]
  · rw [Nat.mul_div_cancel_left _ positive] at zero
    rw [pow_succ]
    exact Nat.mul_dvd_mul_left _ (Nat.dvd_of_mod_eq_zero zero)

/-- When the period of a wheel divides the time and the wheel shows a non-zero
position, the period of no higher wheel divides it. -/
theorem not_dvd_of_digit_ne_zero (digit : time / base ^ level % base ≠ 0) :
    ¬ base ^ (level + 1) ∣ time := by
  rintro ⟨quotient, rfl⟩
  apply digit
  rcases Nat.eq_zero_or_pos (base ^ level) with none | positive
  · rw [none, Nat.div_zero, Nat.zero_mod]
  · rw [pow_succ, mul_assoc, Nat.mul_div_cancel_left _ positive, Nat.mul_mod_right]

end Trunk.Radix
