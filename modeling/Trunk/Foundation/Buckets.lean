import Mathlib.Data.List.Nodup

/-! # Buckets that index a list

Items of a list are chained in buckets, each in the one its key names; an item without
a key is in none. `Trunk.Buckets.Indexes` says that the buckets are right: every item is
once in its bucket, and nothing else is in any. It is kept when an item enters or leaves
both the list and its bucket, and it depends on the keys of listed items only.
-/

namespace Trunk.Buckets

variable {Slot Item : Type*} [DecidableEq Slot] [DecidableEq Item]
  {table : Slot → List Item} {members : List Item} {place place' : Item → Option Slot}
  {slot : Slot} {item : Item}

/-- Chain an item at the head of a bucket. -/
def add (table : Slot → List Item) (slot : Slot) (item : Item) : Slot → List Item :=
  fun other => if other = slot then item :: table other else table other

/-- Unchain an item from the bucket it is in. -/
def remove (table : Slot → List Item) (item : Item) : Slot → List Item :=
  fun slot => (table slot).erase item

/-- Every listed item is once in the bucket of its key; the buckets hold nothing else. -/
def Indexes (table : Slot → List Item) (members : List Item) (place : Item → Option Slot) :
    Prop :=
  ∀ slot item, (table slot).count item = if item ∈ members ∧ place item = some slot then 1 else 0

theorem indexes_empty (place : Item → Option Slot) :
    Indexes (fun _ => []) [] place := by
  intro slot item
  simp only [List.count_nil, List.not_mem_nil, false_and, ↓reduceIte]

theorem Indexes.mem_iff (indexed : Indexes table members place) :
    item ∈ table slot ↔ item ∈ members ∧ place item = some slot := by
  rw [← List.count_pos_iff, indexed slot item]
  split
  · rename_i listed
    exact ⟨fun _ => listed, fun _ => Nat.zero_lt_one⟩
  · rename_i unlisted
    exact ⟨fun positive => absurd positive (Nat.lt_irrefl 0), fun listed => absurd listed unlisted⟩

/-- The keys of items that are not listed do not matter. -/
theorem Indexes.congr (indexed : Indexes table members place)
    (same : ∀ item ∈ members, place' item = place item) : Indexes table members place' := by
  intro slot item
  rw [indexed slot item]
  by_cases listed : item ∈ members
  · rw [same item listed]
  · simp only [listed, false_and]

/-- An item with a key enters the list and its bucket. -/
theorem Indexes.add (indexed : Indexes table members place) (fresh : item ∉ members)
    (placed : place item = some slot) :
    Indexes (add table slot item) (item :: members) place := by
  intro other query
  have before := indexed other query
  by_cases same : query = item
  · subst query
    rw [if_neg fun listed => fresh listed.1] at before
    by_cases here : other = slot
    · subst other
      simp only [Buckets.add, ↓reduceIte, List.count_cons_self, before, List.mem_cons_self, placed,
        and_self]
    · have apart : ¬ place item = some other := by
        rw [placed]
        exact fun equal => here (Option.some.inj equal).symm
      simp only [Buckets.add, here, ↓reduceIte, before, apart, and_false]
  · have count : (Buckets.add table slot item other).count query = (table other).count query := by
      unfold Buckets.add
      split
      · exact List.count_cons_of_ne (Ne.symm same)
      · rfl
    rw [count, before]
    simp only [List.mem_cons, same, false_or]

/-- An item without a key enters the list only. -/
theorem Indexes.skip (indexed : Indexes table members place)
    (unplaced : place item = none) : Indexes table (item :: members) place := by
  intro other query
  rw [indexed other query]
  by_cases same : query = item
  · subst query
    simp only [unplaced, reduceCtorEq, and_false]
  · simp only [List.mem_cons, same, false_or]

/-- An item with a key leaves the list and the bucket. -/
theorem Indexes.remove (indexed : Indexes table members place) (nodup : members.Nodup)
    (item : Item) : Indexes (remove table item) (members.erase item) place := by
  intro slot query
  rw [Buckets.remove, List.count_erase, indexed slot query]
  by_cases same : query = item
  · rw [same]
    have left : item ∉ members.erase item := nodup.not_mem_erase
    simp only [BEq.rfl, ↓reduceIte, left, false_and]
    split <;> rfl
  · have apart : ¬ (item == query) = true := by
      rw [beq_iff_eq]
      exact fun equal => same equal.symm
    simp only [apart, Bool.false_eq_true, ↓reduceIte, List.mem_erase_of_ne same, Nat.sub_zero]

/-- An item without a key leaves the list only. -/
theorem Indexes.drop (indexed : Indexes table members place) (unplaced : place item = none) :
    Indexes table (members.erase item) place := by
  intro slot query
  rw [indexed slot query]
  by_cases same : query = item
  · subst query
    simp only [unplaced, reduceCtorEq, and_false]
  · simp only [List.mem_erase_of_ne same]

end Trunk.Buckets
