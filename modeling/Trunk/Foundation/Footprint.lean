import Mathlib.Data.List.Basic

/-! # Actions on a part of a block

An action that is given a place of a block may look at a part of the block there, and change that part,
but no other cells. What it does is then the same wherever the part is in the block
(`Trunk.Footprint.Acts`), and so is what it finds (`Trunk.Footprint.Finds`). Such actions may be run one
after the other.
-/

namespace Trunk.Footprint

universe u v

variable {α β : Type v} {ε : Type u} {size : Nat} {fault other : ε}
  {act act' : List α → Nat → Except ε (List α)} {get : List α → Nat → Except ε β}

/-- What is found at a place depends on the part of the block there, in which it does not fail with a
fault. -/
structure Finds (size : Nat) (fault : ε) (get : List α → Nat → Except ε β) : Prop where
  same : ∀ front part back, part.length = size →
    get (front ++ part ++ back) front.length = get part 0
  safe : ∀ part, part.length = size → get part 0 ≠ .error fault

/-- An action at a place changes the part of the block there, and does not fail with a fault. -/
structure Acts (size : Nat) (fault : ε) (act : List α → Nat → Except ε (List α)) : Prop where
  same : ∀ front part back, part.length = size →
    act (front ++ part ++ back) front.length = (act part 0).map fun part' => front ++ part' ++ back
  safe : ∀ part, part.length = size → act part 0 ≠ .error fault
  keeps : ∀ part part', part.length = size → act part 0 = .ok part' → part'.length = size

theorem ok_ne_error {value : β} : (.ok value : Except ε β) ≠ .error fault := by
  intro same
  cases same

theorem Acts.throw (differs : other ≠ fault) :
    Acts size fault fun (_ : List α) (_ : Nat) => .error other where
  same := fun _ _ _ _ => rfl
  safe := fun _ _ same => differs (Except.error.inj same)
  keeps := fun _ _ _ ended => absurd ended.symm ok_ne_error

theorem Acts.ite {p : Prop} [Decidable p] (first : Acts size fault act)
    (second : Acts size fault act') :
    Acts size fault fun block place => if p then act block place else act' block place := by
  by_cases holds : p
  · simp only [holds, ↓reduceIte]
    exact first
  · simp only [holds, ↓reduceIte]
    exact second

/-- One action after the other. -/
theorem Acts.bind (first : Acts size fault act) (second : Acts size fault act') :
    Acts size fault fun block place => act block place >>= fun block => act' block place where
  same := by
    intro front part back length
    rw [first.same front part back length]
    cases ran : act part 0 with
    | error err => rfl
    | ok part' => exact second.same front part' back (first.keeps part part' length ran)
  safe := by
    intro part length
    cases ran : act part 0 with
    | error err =>
        have safe := first.safe part length
        rw [ran] at safe
        exact safe
    | ok part' => exact second.safe part' (first.keeps part part' length ran)
  keeps := by
    intro part part' length ended
    cases ran : act part 0 with
    | error err =>
        rw [ran] at ended
        cases ended
    | ok between =>
        rw [ran] at ended
        exact second.keeps between part' (first.keeps part between length ran) ended

/-- An action that depends on what is found. -/
theorem Finds.bind {next : β → List α → Nat → Except ε (List α)} (finds : Finds size fault get)
    (acts : ∀ value, (∃ part, part.length = size ∧ get part 0 = .ok value) →
      Acts size fault (next value)) :
    Acts size fault fun block place => get block place >>= fun value => next value block place where
  same := by
    intro front part back length
    rw [finds.same front part back length]
    cases found : get part 0 with
    | error err => rfl
    | ok value => exact (acts value ⟨part, length, found⟩).same front part back length
  safe := by
    intro part length
    cases found : get part 0 with
    | error err =>
        have safe := finds.safe part length
        rw [found] at safe
        exact fun same => safe (congrArg Except.error (Except.error.inj same))
    | ok value => exact (acts value ⟨part, length, found⟩).safe part length
  keeps := by
    intro part part' length ended
    cases found : get part 0 with
    | error err =>
        rw [found] at ended
        cases ended
    | ok value =>
        rw [found] at ended
        exact (acts value ⟨part, length, found⟩).keeps part part' length ended

end Trunk.Footprint
