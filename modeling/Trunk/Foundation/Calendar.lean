import Mathlib.Data.Nat.Notation
import Mathlib.Tactic.SplitIfs

/-! # Dates and times of day

The days of the Gregorian calendar one after the other, and moments that are some hours later. A
moment that is less than a day later is on the same day (`Trunk.Calendar.Moment.later_same`) or on
the next (`Trunk.Calendar.Moment.later_next`), and the number of a day in its month is not that of
the next day (`Trunk.Calendar.Date.day_next_ne`).
-/

namespace Trunk.Calendar

/-- A year of 366 days. -/
def isLeap (year : Nat) : Bool := year % 4 = 0 && (year % 100 ≠ 0 || year % 400 = 0)

/-- The number of days in a month. -/
def daysInMonth (year month : Nat) : Nat :=
  if month = 2 then if isLeap year then 29 else 28
  else if month = 4 ∨ month = 6 ∨ month = 9 ∨ month = 11 then 30
  else 31

theorem daysInMonth_bounds (year month : Nat) :
    28 ≤ daysInMonth year month ∧ daysInMonth year month ≤ 31 := by
  unfold daysInMonth
  split_ifs <;> omega

/-- A day. -/
@[ext] structure Date where
  year : Nat
  month : Nat
  day : Nat
  month_valid : 1 ≤ month ∧ month ≤ 12
  day_valid : 1 ≤ day ∧ day ≤ daysInMonth year month
  deriving DecidableEq

namespace Date

/-- The first day of a month. -/
def first (year month : Nat) (valid : 1 ≤ month ∧ month ≤ 12) : Date where
  year := year
  month := month
  day := 1
  month_valid := valid
  day_valid := ⟨Nat.le_refl 1, Nat.le_of_lt (Nat.lt_of_lt_of_le (by decide)
    (daysInMonth_bounds year month).1)⟩

/-- The day after a day. -/
def next (date : Date) : Date :=
  if more : date.day < daysInMonth date.year date.month then
    { date with day := date.day + 1, day_valid := ⟨Nat.succ_pos _, more⟩ }
  else if inside : date.month < 12 then
    first date.year (date.month + 1) ⟨Nat.succ_pos _, inside⟩
  else first (date.year + 1) 1 ⟨Nat.le_refl 1, by decide⟩

/-- The next day has another number in its month. -/
theorem day_next_ne (date : Date) : date.next.day ≠ date.day := by
  have bounds := daysInMonth_bounds date.year date.month
  unfold next
  split_ifs with more inside
  · exact Nat.succ_ne_self _
  · change 1 ≠ date.day
    omega
  · change 1 ≠ date.day
    omega

end Date

/-- A second of a day. -/
@[ext] structure Moment where
  date : Date
  hour : Nat
  minute : Nat
  second : Nat
  hour_lt : hour < 24
  minute_lt : minute < 60
  second_lt : second < 60
  deriving DecidableEq

namespace Moment

/-- A number of hours later. -/
def later (moment : Moment) (hours : Fin 24) : Moment :=
  if same : moment.hour + hours < 24 then
    { moment with hour := moment.hour + hours, hour_lt := same }
  else
    { moment with
      date := moment.date.next
      hour := moment.hour + hours - 24
      hour_lt := by
        have := moment.hour_lt
        have := hours.isLt
        omega }

theorem later_same {moment : Moment} {hours : Fin 24} (same : moment.hour + hours < 24) :
    (moment.later hours).date = moment.date ∧ (moment.later hours).hour = moment.hour + hours := by
  unfold later
  rw [dif_pos same]
  exact ⟨rfl, rfl⟩

theorem later_next {moment : Moment} {hours : Fin 24} (past : ¬ moment.hour + hours < 24) :
    (moment.later hours).date = moment.date.next ∧
      (moment.later hours).hour = moment.hour + hours - 24 := by
  unfold later
  rw [dif_neg past]
  exact ⟨rfl, rfl⟩

theorem later_minute (moment : Moment) (hours : Fin 24) :
    (moment.later hours).minute = moment.minute ∧ (moment.later hours).second = moment.second := by
  unfold later
  split <;> exact ⟨rfl, rfl⟩

end Moment

end Trunk.Calendar
