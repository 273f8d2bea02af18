import Mathlib.Data.Nat.ModEq
import Mathlib.Logic.Function.Basic

/-! # Bounded queues in a ring of cells

The first-in first-out queue of a fixed capacity, and its layout in a ring: the
entry `index` places behind the head is in cell `(head + index) % capacity`
(`Trunk.Fifo.Holds`). Writing the cell behind the last entry appends an entry
(`Trunk.Fifo.Holds.push`), and moving the head forward drops the oldest
(`Trunk.Fifo.Holds.pop`). Where a free cell shows that it is free, the ring tells by its cells
whether it is empty or full (`Trunk.Fifo.Fills`).
-/

namespace Trunk.Fifo

variable {α : Type*}

/-- A request to a queue. -/
inductive Op (α : Type*) where
  | write (entry : α)
  | read

/-- What a queue answers: an entry was taken in, an entry is given out, or the
request is refused. -/
inductive Answer (α : Type*) where
  | accepted
  | got (entry : α)
  | refused

/-- The queue of capacity `capacity`: it takes an entry in while it holds fewer, and
gives out the oldest entry while it holds any. -/
def step (capacity : Nat) (entries : List α) : Op α → Answer α × List α
  | .write entry =>
      if entries.length < capacity then (.accepted, entries ++ [entry]) else (.refused, entries)
  | .read =>
      match entries with
      | [] => (.refused, [])
      | entry :: rest => (.got entry, rest)

/-- The cells from `head` on, around a ring of `capacity` cells, hold the entries. -/
def Holds (capacity : Nat) (cell : Nat → α) (head : Nat) (entries : List α) : Prop :=
  ∀ index entry, entries[index]? = some entry → cell ((head + index) % capacity) = entry

variable {capacity head : Nat} {cell cell' : Nat → α} {entries : List α} {entry : α}

theorem holds_nil : Holds capacity cell head [] := by
  intro index entry found
  cases found

/-- Two places less than a turn apart are different cells. -/
theorem cell_ne {first second : Nat} (different : first ≠ second) (near : first < capacity)
    (close : second < capacity) : (head + first) % capacity ≠ (head + second) % capacity := by
  intro same
  have congruent : first ≡ second [MOD capacity] := Nat.ModEq.add_left_cancel' head same
  apply different
  rw [Nat.ModEq, Nat.mod_eq_of_lt near, Nat.mod_eq_of_lt close] at congruent
  exact congruent

/-- Writing the cell behind the last entry appends an entry. -/
theorem Holds.push (holds : Holds capacity cell head entries) (room : entries.length < capacity)
    (written : cell' ((head + entries.length) % capacity) = entry)
    (others : ∀ place < capacity, place ≠ (head + entries.length) % capacity →
      cell' place = cell place) : Holds capacity cell' head (entries ++ [entry]) := by
  intro index other found
  by_cases old : index < entries.length
  · rw [List.getElem?_append_left old] at found
    rw [others _ (Nat.mod_lt _ (by omega)) (cell_ne (by omega) (by omega) room)]
    exact holds index other found
  · rw [List.getElem?_append_right (not_lt.mp old)] at found
    rcases Nat.eq_or_lt_of_le (not_lt.mp old) with last | beyond
    · rw [← last, Nat.sub_self, List.getElem?_cons_zero, Option.some.injEq] at found
      rw [← last, written, found]
    · rw [List.getElem?_eq_none (by rw [List.length_singleton]; omega)] at found
      cases found

theorem Holds.oldest (holds : Holds capacity cell head (entry :: entries)) :
    cell (head % capacity) = entry :=
  holds 0 entry rfl

/-- Moving the head forward drops the oldest entry, whose cell is free again. -/
theorem Holds.pop (holds : Holds capacity cell head (entry :: entries))
    (fits : entries.length < capacity)
    (others : ∀ place < capacity, place ≠ head % capacity → cell' place = cell place) :
    Holds capacity cell' ((head + 1) % capacity) entries := by
  intro index other found
  have inside : index < entries.length := by
    by_contra outside
    rw [List.getElem?_eq_none (not_lt.mp outside)] at found
    cases found
  have place : ((head + 1) % capacity + index) % capacity = (head + (index + 1)) % capacity := by
    rw [Nat.mod_add_mod]
    congr 1
    omega
  have moved : (head + (index + 1)) % capacity ≠ head % capacity :=
    cell_ne (Nat.succ_ne_zero index) (by omega) (by omega)
  rw [place, others _ (Nat.mod_lt _ (by omega)) moved]
  exact holds (index + 1) other found

/-! ### Cells that show whether they are free -/

/-- The cells from `head` on hold the entries, and the others are free. -/
structure Fills (capacity : Nat) (cell : Nat → Option α) (head : Nat) (entries : List α) : Prop where
  inside : head < capacity
  fits : entries.length ≤ capacity
  cells : ∀ index < capacity, cell ((head + index) % capacity) = entries[index]?

variable {slot : Nat → Option α}

theorem fills_nil (inside : head < capacity) (free : ∀ place, slot place = none) :
    Fills capacity slot head [] := ⟨inside, Nat.zero_le _, fun _ _ => free _⟩

/-- The cell at the head holds the oldest entry. -/
theorem Fills.oldest (fills : Fills capacity slot head entries) : slot head = entries.head? := by
  have first := fills.cells 0 ((Nat.zero_le head).trans_lt fills.inside)
  rwa [Nat.add_zero, Nat.mod_eq_of_lt fills.inside, ← List.head?_eq_getElem?] at first

/-- The cell behind the last entry is free unless all are taken. -/
theorem Fills.behind (fills : Fills capacity slot head entries) :
    slot ((head + entries.length) % capacity) = none ↔ entries.length < capacity := by
  constructor
  · intro free
    by_contra full
    have all : entries.length = capacity := Nat.le_antisymm fills.fits (not_lt.mp full)
    rw [all, Nat.add_mod_right, Nat.mod_eq_of_lt fills.inside, fills.oldest,
      List.head?_eq_none_iff] at free
    have inside := fills.inside
    rw [← all, free] at inside
    exact Nat.not_lt_zero head inside
  · intro room
    rw [fills.cells _ room, List.getElem?_eq_none le_rfl]

theorem Fills.push (fills : Fills capacity slot head entries) (room : entries.length < capacity) :
    Fills capacity (Function.update slot ((head + entries.length) % capacity) (some entry)) head
      (entries ++ [entry]) where
  inside := fills.inside
  fits := by
    rw [List.length_append]
    exact room
  cells index bound := by
    by_cases last : index = entries.length
    · rw [last, Function.update_self, List.getElem?_append_right le_rfl, Nat.sub_self]
      rfl
    · rw [Function.update_of_ne (cell_ne last bound room), fills.cells index bound]
      rcases Nat.lt_or_gt_of_ne last with old | beyond
      · rw [List.getElem?_append_left old]
      · rw [List.getElem?_eq_none (le_of_lt beyond), List.getElem?_eq_none]
        rw [List.length_append]
        exact beyond

theorem Fills.pop (fills : Fills capacity slot head (entry :: entries)) :
    Fills capacity (Function.update slot head none) ((head + 1) % capacity) entries where
  inside := Nat.mod_lt _ ((Nat.zero_le head).trans_lt fills.inside)
  fits := (Nat.le_succ _).trans fills.fits
  cells index bound := by
    have place : ((head + 1) % capacity + index) % capacity = (head + (index + 1)) % capacity := by
      rw [Nat.mod_add_mod]
      congr 1
      omega
    rw [place]
    by_cases last : index + 1 = capacity
    · have few : entries.length < capacity := fills.fits
      rw [last, Nat.add_mod_right, Nat.mod_eq_of_lt fills.inside, Function.update_self,
        List.getElem?_eq_none (by omega)]
    · have near : index + 1 < capacity := by omega
      have moved : (head + (index + 1)) % capacity ≠ head := by
        have apart := @cell_ne capacity head _ _ (Nat.succ_ne_zero index) near
          ((Nat.zero_le head).trans_lt fills.inside)
        rwa [Nat.add_zero, Nat.mod_eq_of_lt fills.inside] at apart
      rw [Function.update_of_ne moved, fills.cells _ near, List.getElem?_cons_succ]

end Trunk.Fifo
