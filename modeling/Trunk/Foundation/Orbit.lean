import Mathlib.Data.Finite.Defs
import Mathlib.Data.Fintype.Pigeonhole

/-! # Walks that may end

Each place has a next one, or is the last. A walk from a place ends, or goes on for ever
(`Trunk.Orbit.after`). Over finitely many places it ends exactly if it does not come back to a place
where it was (`Trunk.Orbit.ends_iff`).
-/

namespace Trunk.Orbit

variable {Place : Type*} {next : Place → Option Place} {place other : Place} {count more : Nat}

/-- The place after a number of steps; none if the walk has ended by then. -/
def after (next : Place → Option Place) : Nat → Place → Option Place
  | 0, place => some place
  | count + 1, place => (next place).bind (after next count)

/-- The walk ends. -/
def Ends (next : Place → Option Place) (place : Place) : Prop := ∃ count, after next count place = none

/-- A place that the walk comes to. -/
def Visits (next : Place → Option Place) (place other : Place) : Prop :=
  ∃ count, after next count place = some other

/-- A walk from a place comes back to it. -/
def Returns (next : Place → Option Place) (place : Place) : Prop :=
  ∃ count, after next (count + 1) place = some place

theorem after_succ (step : next place = some other) :
    after next (count + 1) place = after next count other := by
  rw [after, step, Option.bind_some]

theorem after_add : after next (count + more) place =
    (after next count place).bind (after next more) := by
  induction count generalizing place with
  | zero => rw [Nat.zero_add, after, Option.bind_some]
  | succ count ih =>
      rw [Nat.add_right_comm count 1 more, after]
      cases step : next place with
      | none => rw [after, step]; rfl
      | some other =>
          rw [after, step, Option.bind_some, Option.bind_some]
          exact ih

/-- A walk that has ended stays so. -/
theorem after_none (ended : after next count place = none) (order : count ≤ more) :
    after next more place = none := by
  obtain ⟨rest, rfl⟩ := Nat.exists_eq_add_of_le order
  rw [after_add, ended, Option.bind_none]

theorem visits_self (next : Place → Option Place) (place : Place) : Visits next place place :=
  ⟨0, rfl⟩

theorem Visits.head {first : Place} (step : next first = some place)
    (visits : Visits next place other) : Visits next first other := by
  obtain ⟨count, there⟩ := visits
  exact ⟨count + 1, (after_succ step).trans there⟩

/-- What a walk comes to from its second place on, it comes to. -/
theorem visits_cases {first : Place} (visits : Visits next first other) :
    other = first ∨ ∃ place, next first = some place ∧ Visits next place other := by
  obtain ⟨count, there⟩ := visits
  cases count with
  | zero => exact .inl (Option.some.inj there).symm
  | succ count =>
      rw [after] at there
      obtain ⟨place, step, later⟩ := Option.bind_eq_some_iff.mp there
      exact .inr ⟨place, step, count, later⟩

/-- A walk that comes back to its start is there again and again. -/
theorem after_mul (back : after next count place = some place) (times : Nat) :
    after next (times * count) place = some place := by
  induction times with
  | zero =>
      rw [Nat.zero_mul]
      rfl
  | succ times ih => rw [Nat.succ_mul, after_add, ih, Option.bind_some, back]

theorem not_ends_of_returns (returns : Returns next place) : ¬Ends next place := by
  rintro ⟨last, ended⟩
  obtain ⟨count, back⟩ := returns
  have again := after_mul back last
  rw [after_none ended (Nat.le_mul_of_pos_right last (Nat.succ_pos count))] at again
  cases again

theorem ends_of_visits (ends : Ends next place) (visits : Visits next place other) :
    Ends next other := by
  obtain ⟨last, ended⟩ := ends
  obtain ⟨count, there⟩ := visits
  refine ⟨last, ?_⟩
  have later := after_none ended (Nat.le_add_left last count)
  rw [after_add, there, Option.bind_some] at later
  exact later

/-- Over finitely many places a walk ends exactly if it does not come back. -/
theorem ends_iff [Finite Place] (next : Place → Option Place) (place : Place) :
    Ends next place ↔ ∀ other, Visits next place other → ¬Returns next other := by
  constructor
  · intro ends other visits returns
    exact not_ends_of_returns returns (ends_of_visits ends visits)
  · intro forward
    by_contra goes
    have steps : ∀ count, ∃ other, after next count place = some other := fun count =>
      Option.ne_none_iff_exists'.mp fun ended => goes ⟨count, ended⟩
    choose walk there using steps
    obtain ⟨first, second, differ, same⟩ := Finite.exists_ne_map_eq_of_infinite walk
    -- the walk is at the same place twice
    wlog order : first < second generalizing first second
    · exact this second first differ.symm same.symm (by omega)
    obtain ⟨count, rfl⟩ := Nat.exists_eq_add_of_lt order
    refine forward (walk first) ⟨first, there first⟩ ⟨count, ?_⟩
    have later := there (first + count + 1)
    rw [Nat.add_assoc, after_add, there first, Option.bind_some, ← Nat.add_assoc, ← same] at later
    exact later

end Trunk.Orbit
