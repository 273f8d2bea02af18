import Trunk.Foundation.Radix
import Trunk.Timer.Naive

/-! # Filing a timer on the wheel

A pending timer is on exactly the slot list its node records
(`Trunk.Timer.Linked`), kept by `tm_insert` and `tm_remove`. The slot that
`tm_find_ring` picks is one that the ring runs after the time the ring shows and no
later than the delay allows (`Trunk.Timer.tmFindRing_shows`). A ring that the carry
has not reached yet still shows the previous tick, which the statement allows ring
by ring.
-/

namespace Trunk.Timer

variable {Timer Cb World : Type} {s : State Timer Cb World} {timer : Timer}

theorem and_tmMask (value : Nat) : value &&& tmMask = value % 256 :=
  Nat.and_two_pow_sub_one_eq_mod value 8

theorem tmFindOffset_spec {left : Nat} (positive : 0 < left) (bounded : left < 2 ^ 32) :
    (tmFindOffset left tmRingmax).1 < tmRing ∧
      (tmFindOffset left tmRingmax).2 = left / 256 ^ (tmFindOffset left tmRingmax).1 ∧
      0 < left / 256 ^ (tmFindOffset left tmRingmax).1 := by
  simp only [tmFindOffset, tmRingmax, tmRing, tmBit, Nat.shiftLeft_eq, Nat.shiftRight_eq_div_pow]
  split_ifs <;> simp only [Nat.reducePow] at * <;> omega

/-- The slot `tm_find_ring` picks is run after the time its ring shows, `shown`, and
no later than `shown` plus what is left. -/
theorem tmFindRing_shows (shown : Nat → Nat)
    (rings : ∀ ring < tmRing, s.current ring = shown ring / 256 ^ ring % 256)
    (positive : 0 < tmLeft s timer) (bounded : tmLeft s timer < 2 ^ 32) :
    (tmFindRing s timer).1 < tmRing ∧
      ∃ visit, shown (tmFindRing s timer).1 < visit ∧
        visit ≤ shown (tmFindRing s timer).1 + tmLeft s timer ∧
        Radix.Shows 256 (tmFindRing s timer).1 (tmFindRing s timer).2 visit := by
  obtain ⟨inside, offset, ahead⟩ := tmFindOffset_spec positive bounded
  refine ⟨inside, ?_⟩
  have slot : (tmFindRing s timer).2 =
      (shown (tmFindRing s timer).1 / 256 ^ (tmFindRing s timer).1 +
        tmLeft s timer / 256 ^ (tmFindRing s timer).1) % 256 := by
    change (s.current (tmFindOffset (tmLeft s timer) tmRingmax).1 +
      (tmFindOffset (tmLeft s timer) tmRingmax).2) &&& tmMask = _
    rw [and_tmMask, rings _ inside, offset, Nat.mod_add_mod]
    rfl
  rw [slot]
  exact Radix.shows_filed (by decide) ahead

theorem tmLeft_eq (small : (s.node timer).create + (s.node timer).expires < 2 ^ 64)
    (near : (s.node timer).create + (s.node timer).expires - s.ticks < 2 ^ 32) :
    tmLeft s timer = (s.node timer).create + (s.node timer).expires - s.ticks := by
  simp only [tmLeft, Nat.mod_eq_of_lt small]
  split
  · exact Nat.mod_eq_of_lt near
  · omega

/-- A pending timer is on the slot list its node records and on no other, once; a
timer that is not pending is on none. -/
structure Linked (s : State Timer Cb World) : Prop where
  mem : ∀ ring slot timer, timer ∈ s.slotList ring slot ↔
    (s.node timer).pending = true ∧ (s.node timer).ringIdx = ring ∧
      (s.node timer).ringSlot = slot
  nodup : ∀ ring slot, (s.slotList ring slot).Nodup

theorem linked_init (world : World) : Linked (init world : State Timer Cb World) where
  mem := by simp [init]
  nodup := by simp [init]

/-- The lists and the recorded places decide `Linked`. -/
theorem Linked.congr {s' : State Timer Cb World} (linked : Linked s)
    (lists : s'.slotList = s.slotList)
    (pending : ∀ timer, (s'.node timer).pending = (s.node timer).pending)
    (ringIdx : ∀ timer, (s.node timer).pending = true →
      (s'.node timer).ringIdx = (s.node timer).ringIdx)
    (ringSlot : ∀ timer, (s.node timer).pending = true →
      (s'.node timer).ringSlot = (s.node timer).ringSlot) : Linked s' where
  mem := by
    intro ring slot timer
    rw [lists, linked.mem, pending]
    by_cases isPending : (s.node timer).pending = true
    · rw [ringIdx timer isPending, ringSlot timer isPending]
    · simp only [isPending, Bool.false_eq_true, false_and]
  nodup := by
    rw [lists]
    exact linked.nodup

variable [DecidableEq Timer]

@[simp] theorem tmInsert_log : (tmInsert s timer).log = s.log := rfl
@[simp] theorem tmRemove_ticks : (tmRemove s timer).ticks = s.ticks := rfl
@[simp] theorem tmRemove_log : (tmRemove s timer).log = s.log := rfl

theorem tmInsert_node_self : (tmInsert s timer).node timer =
    { s.node timer with
      ringIdx := (tmFindRing s timer).1
      ringSlot := (tmFindRing s timer).2
      pending := true } :=
  Function.update_self ..

theorem tmInsert_node_of_ne {other : Timer} (different : other ≠ timer) :
    (tmInsert s timer).node other = s.node other :=
  Function.update_of_ne different ..

theorem tmRemove_node_self :
    (tmRemove s timer).node timer = { s.node timer with pending := false } :=
  Function.update_self ..

theorem tmRemove_node_of_ne {other : Timer} (different : other ≠ timer) :
    (tmRemove s timer).node other = s.node other :=
  Function.update_of_ne different ..

/-- `tm_insert` links a timer that is not pending. -/
theorem tmInsert_linked (linked : Linked s) (idle : (s.node timer).pending = false) :
    Linked (tmInsert s timer) := by
  have absent : ∀ ring slot, timer ∉ s.slotList ring slot := by
    intro ring slot member
    have isPending := ((linked.mem ring slot timer).mp member).1
    rw [idle] at isPending
    exact Bool.false_ne_true isPending
  have lists : ∀ ring slot, (tmInsert s timer).slotList ring slot =
      if ring = (tmFindRing s timer).1 ∧ slot = (tmFindRing s timer).2 then
        timer :: s.slotList ring slot
      else s.slotList ring slot := by
    intro ring slot
    refine (setAt_apply ..).trans ?_
    split
    · rename_i same
      rw [same.1, same.2]
    · rfl
  constructor
  · intro ring slot other
    rw [lists]
    by_cases same : other = timer
    · subst other
      rw [tmInsert_node_self]
      by_cases here : ring = (tmFindRing s timer).1 ∧ slot = (tmFindRing s timer).2
      · simp only [here, and_self, ↓reduceIte, List.mem_cons, true_or]
      · simp only [here, ↓reduceIte, absent, false_iff, true_and]
        exact fun place => here ⟨place.1.symm, place.2.symm⟩
    · rw [tmInsert_node_of_ne same, ← linked.mem ring slot other]
      split
      · simp only [List.mem_cons, same, false_or]
      · rfl
  · intro ring slot
    rw [lists]
    split
    · exact List.nodup_cons.mpr ⟨absent ring slot, linked.nodup ring slot⟩
    · exact linked.nodup ring slot

/-- `tm_remove` unlinks a timer. -/
theorem tmRemove_linked (linked : Linked s) : Linked (tmRemove s timer) := by
  constructor
  · intro ring slot other
    change other ∈ (s.slotList ring slot).erase timer ↔ _
    by_cases same : other = timer
    · subst other
      rw [tmRemove_node_self]
      simp only [Bool.false_eq_true, false_and, iff_false]
      exact (linked.nodup ring slot).not_mem_erase
    · rw [tmRemove_node_of_ne same, ← linked.mem ring slot other]
      exact List.mem_erase_of_ne same
  · intro ring slot
    exact (linked.nodup ring slot).erase timer

end Trunk.Timer
