import Mathlib.Data.Option.Basic
import Trunk.Foundation.Memory

/-! # Lists of writes

What a list of writes makes of a block. A write of nothing can stand anywhere, every other one has to
end inside the block: a list can be carried out exactly if each of its writes can
(`Trunk.Writes.putAll_isSome_iff`). Then a cell holds what the last write over it says, and what it
held before if there is none (`Trunk.Writes.getElem?_putAll`).
-/

namespace Trunk.Writes

open Memory

variable {α : Type*}

/-- Some cells, and the place of the first one. -/
structure Write (α : Type*) where
  place : Nat
  content : List α
  deriving DecidableEq, Repr

namespace Write

variable {w : Write α} {index : Nat}

/-- The place behind a write. -/
def stop (w : Write α) : Nat := w.place + w.content.length

/-- A write of something ends inside a block of a size. -/
def Within (w : Write α) (size : Nat) : Prop := w.content = [] ∨ w.stop ≤ size

/-- What a write says of a cell. -/
def cell (w : Write α) (index : Nat) : Option α :=
  if w.place ≤ index then w.content[index - w.place]? else none

theorem cell_eq_none_iff : w.cell index = none ↔ index < w.place ∨ w.stop ≤ index := by
  unfold cell stop
  split
  · rw [List.getElem?_eq_none_iff]
    omega
  · simp only [true_iff]
    omega

theorem covered {value : α} (here : w.cell index = some value) :
    w.place ≤ index ∧ index < w.stop := by
  by_contra outside
  rw [cell_eq_none_iff.mpr (by omega)] at here
  cases here

theorem cell_place (w : Write α) {offset : Nat} : w.cell (w.place + offset) = w.content[offset]? := by
  rw [cell, if_pos (Nat.le_add_right _ _), Nat.add_sub_cancel_left]

end Write

/-- A block after a write. -/
def put (block : List α) (w : Write α) : Option (List α) :=
  if w.content.isEmpty then some block else store block w.place w.content

/-- A block after some writes. -/
def putAll (block : List α) (writes : List (Write α)) : Option (List α) := writes.foldlM put block

/-- What the last write over a cell says of it. -/
def last : List (Write α) → Nat → Option α
  | [], _ => none
  | w :: writes, index => (last writes index).or (w.cell index)

section

variable {block block' : List α} {w : Write α} {writes first second : List (Write α)} {index : Nat}

@[simp] theorem last_nil (index : Nat) : last ([] : List (Write α)) index = none := rfl

@[simp] theorem last_cons (w : Write α) (writes : List (Write α)) (index : Nat) :
    last (w :: writes) index = (last writes index).or (w.cell index) := rfl

theorem last_append (first second : List (Write α)) (index : Nat) :
    last (first ++ second) index = (last second index).or (last first index) := by
  induction first with
  | nil => rw [List.nil_append, last_nil, Option.or_none]
  | cons w writes ih => rw [List.cons_append, last_cons, ih, last_cons, Option.or_assoc]

theorem last_eq_none (apart : ∀ w ∈ writes, w.cell index = none) : last writes index = none := by
  induction writes with
  | nil => rfl
  | cons w writes ih =>
      rw [last_cons, apart w (List.mem_cons_self ..),
        ih fun other member => apart other (List.mem_cons_of_mem _ member), Option.none_or]

theorem put_isSome_iff : (put block w).isSome ↔ w.Within block.length := by
  unfold put Write.Within Write.stop
  cases empty : w.content with
  | nil => simp
  | cons x xs => simp [store]

theorem put_eq_store (some : w.content ≠ []) : put block w = store block w.place w.content := by
  unfold put
  rw [if_neg (mt List.isEmpty_iff.mp some)]

theorem put_length (done : put block w = some block') : block'.length = block.length := by
  unfold put at done
  split at done
  · rw [Option.some.inj done]
  · exact store_length done

theorem getElem?_put (done : put block w = some block') (index : Nat) :
    block'[index]? = (w.cell index).or block[index]? := by
  unfold put at done
  unfold Write.cell
  split at done
  · rename_i empty
    rw [List.isEmpty_iff] at empty
    rw [Option.some.inj done, empty, List.getElem?_nil, ite_self, Option.none_or]
  · obtain ⟨inside, -⟩ := store_eq_some_iff.mp done
    rw [getElem?_store done]
    by_cases covered : w.place ≤ index ∧ index < w.place + w.content.length
    · have there : index - w.place < w.content.length := by omega
      rw [if_pos covered, if_pos covered.1, List.getElem?_eq_getElem there, Option.some_or]
    · rw [if_neg covered]
      by_cases behind : w.place ≤ index
      · have beyond : w.content[index - w.place]? = none := List.getElem?_eq_none (by omega)
        rw [if_pos behind, beyond, Option.none_or]
      · rw [if_neg behind, Option.none_or]

@[simp] theorem putAll_nil (block : List α) : putAll block [] = some block := rfl

@[simp] theorem putAll_cons (block : List α) (w : Write α) (writes : List (Write α)) :
    putAll block (w :: writes) = (put block w).bind fun next => putAll next writes := rfl

theorem putAll_length (done : putAll block writes = some block') : block'.length = block.length := by
  induction writes generalizing block with
  | nil => rw [Option.some.inj done]
  | cons w writes ih =>
      obtain ⟨next, one, rest⟩ := Option.bind_eq_some_iff.mp done
      exact (ih rest).trans (put_length one)

/-- Writes can be carried out exactly if each of them can. -/
theorem putAll_isSome_iff :
    (putAll block writes).isSome ↔ ∀ w ∈ writes, w.Within block.length := by
  induction writes generalizing block with
  | nil => simp
  | cons w writes ih =>
      rw [putAll_cons, List.forall_mem_cons, ← put_isSome_iff]
      cases one : put block w with
      | none => simp
      | some next =>
          rw [Option.bind_some, ih, put_length one]
          simp

/-- A cell holds what the last write over it says. -/
theorem getElem?_putAll (done : putAll block writes = some block') (index : Nat) :
    block'[index]? = (last writes index).or block[index]? := by
  induction writes generalizing block with
  | nil => rw [Option.some.inj done, last_nil, Option.none_or]
  | cons w writes ih =>
      obtain ⟨next, one, rest⟩ := Option.bind_eq_some_iff.mp done
      rw [ih rest, getElem?_put one, last_cons, Option.or_assoc]

/-- No later write says anything else of a cell of a write. -/
def Stays (w : Write α) (later : List (Write α)) : Prop :=
  ∀ index value, w.cell index = some value → ∀ other, last later index = some other → other = value

theorem stays_append_of_apart (apart : ∀ index value, w.cell index = some value →
    last first index = none) : Stays w (first ++ second) ↔ Stays w second := by
  have same : ∀ index value, w.cell index = some value →
      last (first ++ second) index = last second index := by
    intro index value here
    rw [last_append, apart index value here, Option.or_none]
  constructor
  · intro stays index value here other
    rw [← same index value here]
    exact stays index value here other
  · intro stays index value here other
    rw [same index value here]
    exact stays index value here other

/-- A write is seen in the end exactly if no later one says anything else. -/
theorem stays_iff_cells {cells before : Nat → Option α}
    (left : ∀ index value, w.cell index = some value →
      cells index = (last (first ++ w :: second) index).or (before index)) :
    Stays w second ↔
      ∀ offset < w.content.length, cells (w.place + offset) = w.content[offset]? := by
  have seen : ∀ index value, w.cell index = some value →
      (cells index = some value ↔ ∀ other, last second index = some other → other = value) := by
    intro index value here
    rw [left index value here, last_append, last_cons, here]
    cases last second index with
    | none => simp
    | some other => simp
  constructor
  · intro stays offset inside
    have here : w.cell (w.place + offset) = some w.content[offset] := by
      rw [w.cell_place, List.getElem?_eq_getElem inside]
    rw [List.getElem?_eq_getElem inside]
    exact (seen _ _ here).mpr (stays _ _ here)
  · intro all index value here
    refine (seen index value here).mp ?_
    obtain ⟨low, high⟩ := Write.covered here
    obtain ⟨offset, rfl⟩ := Nat.exists_eq_add_of_le low
    rw [w.cell_place] at here
    rw [all offset (Nat.lt_of_add_lt_add_left high)]
    exact here

end

end Trunk.Writes
