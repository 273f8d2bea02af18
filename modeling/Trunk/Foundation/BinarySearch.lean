import Mathlib.Order.Lattice
import Mathlib.Tactic.Conv

/-! # Binary search among keys in any order

The search halves a range of places until it meets the target or the range is empty. On its way to a
place it compares the target with the keys of the middles in between, which depend on the place
alone (`Trunk.BinarySearch.pivots`). The keys need not be in order: the search finds a place exactly
if the key there is the target and every pivot on the way points towards the place
(`Trunk.BinarySearch.search_eq_some_iff`).
-/

namespace Trunk.BinarySearch

variable {α : Type*} [LinearOrder α] {key key' : Nat → α} {target : α} {l count m : Nat}

/-- The place in the middle of a range. -/
def middle (l count : Nat) : Nat := l + (count - 1) / 2

/-- The search in the range of `count` places from `l` on. -/
def search (key : Nat → α) (target : α) (l count : Nat) : Option Nat :=
  if count = 0 then none
  else if key (middle l count) = target then some (middle l count)
  else if target < key (middle l count) then search key target l ((count - 1) / 2)
  else search key target (middle l count + 1) (count / 2)
termination_by count
decreasing_by all_goals omega

/-- The middles that a search compares with on its way to a place. -/
def pivots (m l count : Nat) : List Nat :=
  if count = 0 ∨ m = middle l count then []
  else if m < middle l count then middle l count :: pivots m l ((count - 1) / 2)
  else middle l count :: pivots m (middle l count + 1) (count / 2)
termination_by count
decreasing_by all_goals omega

/-- The pivot sends the search for the target towards the place. -/
def Points (key : Nat → α) (target : α) (m pivot : Nat) : Prop :=
  (m < pivot → target < key pivot) ∧ (pivot < m → key pivot < target)

instance : Decidable (Points key target m l) := inferInstanceAs (Decidable (_ ∧ _))

theorem pivots_middle (l count : Nat) : pivots (middle l count) l count = [] := by
  rw [pivots, if_pos (.inr rfl)]

theorem pivots_left (some : count ≠ 0) (less : m < middle l count) :
    pivots m l count = middle l count :: pivots m l ((count - 1) / 2) := by
  conv_lhs => rw [pivots]
  rw [if_neg (by omega), if_pos less]

theorem pivots_right (some : count ≠ 0) (more : middle l count < m) :
    pivots m l count = middle l count :: pivots m (middle l count + 1) (count / 2) := by
  conv_lhs => rw [pivots]
  rw [if_neg (by omega), if_neg (by omega)]

/-- The search finds a place exactly if the key there is the target and the pivots on the way point
towards it. -/
theorem search_eq_some_iff :
    search key target l count = some m ↔
      l ≤ m ∧ m < l + count ∧ key m = target ∧
        ∀ pivot ∈ pivots m l count, Points key target m pivot := by
  fun_induction search key target l count with
  | case1 l =>
      constructor
      · intro impossible
        cases impossible
      · rintro ⟨least, most, -⟩
        omega
  | case2 l count some found =>
      constructor
      · intro same
        obtain rfl := Option.some.inj same
        refine ⟨Nat.le_add_right _ _, ?_, found, ?_⟩
        · unfold middle
          omega
        · rw [pivots_middle]
          exact fun pivot member => absurd member List.not_mem_nil
      · rintro ⟨least, most, same, points⟩
        rcases Nat.lt_trichotomy m (middle l count) with less | rfl | more
        · rw [pivots_left some less] at points
          exact absurd found ((points _ List.mem_cons_self).1 less).ne'
        · rfl
        · rw [pivots_right some more] at points
          exact absurd found ((points _ List.mem_cons_self).2 more).ne
  | case3 l count some differ less ih =>
      rw [ih]
      have place : middle l count = l + (count - 1) / 2 := rfl
      constructor
      · rintro ⟨least, most, same, points⟩
        refine ⟨least, by omega, same, ?_⟩
        rw [pivots_left some (by omega), List.forall_mem_cons]
        exact ⟨⟨fun _ => less, fun more => by omega⟩, points⟩
      · rintro ⟨least, most, same, points⟩
        rcases Nat.lt_trichotomy m (middle l count) with before | rfl | behind
        · rw [pivots_left some before, List.forall_mem_cons] at points
          exact ⟨least, by omega, same, points.2⟩
        · exact absurd same differ
        · rw [pivots_right some behind, List.forall_mem_cons] at points
          exact absurd less (points.1.2 behind).asymm
  | case4 l count some differ more ih =>
      rw [ih]
      have place : middle l count = l + (count - 1) / 2 := rfl
      have less : key (middle l count) < target := lt_of_le_of_ne (not_lt.mp more) differ
      constructor
      · rintro ⟨least, most, same, points⟩
        refine ⟨by omega, by omega, same, ?_⟩
        rw [pivots_right some (by omega), List.forall_mem_cons]
        exact ⟨⟨fun before => by omega, fun _ => less⟩, points⟩
      · rintro ⟨least, most, same, points⟩
        rcases Nat.lt_trichotomy m (middle l count) with before | rfl | behind
        · rw [pivots_left some before, List.forall_mem_cons] at points
          exact absurd less (points.1.1 before).asymm
        · exact absurd same differ
        · rw [pivots_right some behind, List.forall_mem_cons] at points
          exact ⟨by omega, by omega, same, points.2⟩

end Trunk.BinarySearch
