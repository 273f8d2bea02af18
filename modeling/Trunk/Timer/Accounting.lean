import Mathlib.Algebra.Order.BigOperators.Group.Finset
import Mathlib.Data.Set.Card
import Trunk.Timer.Refinement

/-! # Accounts of the timer wheel

`CLOCK` counts its timers at four levels: the slots, the rings, the clock, and the
totals of insertions and removals. The counts are adjusted separately by `tm_insert`
and `tm_remove`, and the cursors by the carry of `tm_trigger`. After every run of
legal calls they agree with the lists and with each other, and the cursors show the
digits of the tick (`Trunk.Timer.wheel_accounts`). Nothing here asks for the ticks or
the deadlines to stay below `2 ^ 64`: a deadline that wraps files its timer in another
slot, which the accounts do not mind.

The source counts in 32 bits and in 64 bits; the numbers here are those counts before
they wrap.
-/

namespace Trunk.Timer

open Run

variable {Timer Cb World : Type} {s s' : State Timer Cb World} {timer : Timer}

/-- `TM_SLOT`. -/
def tmSlot : Nat := tmMask + 1

/-- The timers that wait to run. -/
def State.pendingTimers (s : State Timer Cb World) : Set Timer :=
  {timer | (s.node timer).pending = true}

/-- The counts of the slots, of the rings and of the clock agree with the lists. -/
structure Accounts (s : State Timer Cb World) : Prop where
  linked : Linked s
  inside : ∀ timer ∈ s.pendingTimers,
    (s.node timer).ringIdx < tmRing ∧ (s.node timer).ringSlot < tmSlot
  slots : ∀ ring slot, s.slotCount ring slot = (s.slotList ring slot).length
  rings : ∀ ring, s.ringCount ring = ∑ slot ∈ Finset.range tmSlot, s.slotCount ring slot
  total : s.count = ∑ ring ∈ Finset.range tmRing, s.ringCount ring
  finite : s.pendingTimers.Finite
  pending : s.count = s.pendingTimers.ncard

/-- The cursor of every ring shows its digit of the tick. -/
def Cursors (s : State Timer Cb World) : Prop :=
  ∀ ring < tmRing, s.current ring = (s.ticks >>> (tmBit * ring)) &&& tmMask

theorem accounts_init (world : World) : Accounts (init world : State Timer Cb World) where
  linked := linked_init world
  inside := by simp [State.pendingTimers, init]
  slots := by simp [init]
  rings := by simp [init]
  total := by simp [init]
  finite := by simp [State.pendingTimers, init]
  pending := by simp [State.pendingTimers, init]

theorem cursors_init (world : World) : Cursors (init world : State Timer Cb World) := by
  intro ring _
  simp [init]

/-- The counts, the lists and the recorded places decide `Accounts`. -/
theorem Accounts.congr (accounts : Accounts s) (lists : s'.slotList = s.slotList)
    (slotCount : s'.slotCount = s.slotCount) (ringCount : s'.ringCount = s.ringCount)
    (count : s'.count = s.count)
    (pending : ∀ timer, (s'.node timer).pending = (s.node timer).pending)
    (place : ∀ timer, (s.node timer).pending = true →
      (s'.node timer).ringIdx = (s.node timer).ringIdx ∧
        (s'.node timer).ringSlot = (s.node timer).ringSlot) : Accounts s' := by
  have samePending : s'.pendingTimers = s.pendingTimers := by
    ext timer
    simp only [State.pendingTimers, Set.mem_ofPred_eq, pending]
  refine {
    linked := accounts.linked.congr lists pending (fun timer isPending => (place timer isPending).1)
      (fun timer isPending => (place timer isPending).2)
    inside := ?_
    slots := by rw [slotCount, lists]; exact accounts.slots
    rings := by rw [slotCount, ringCount]; exact accounts.rings
    total := by rw [ringCount, count]; exact accounts.total
    finite := by rw [samePending]; exact accounts.finite
    pending := by rw [samePending, count]; exact accounts.pending }
  intro timer member
  rw [samePending] at member
  rw [(place timer member).1, (place timer member).2]
  exact accounts.inside timer member

/-- Raising one term of a sum by one. -/
theorem sum_update_succ {index bound : Nat} (f : Nat → Nat) (below : index < bound) :
    ∑ i ∈ Finset.range bound, Function.update f index (f index + 1) i =
      ∑ i ∈ Finset.range bound, f i + 1 := by
  have member : index ∈ Finset.range bound := Finset.mem_range.mpr below
  rw [Finset.sum_update_of_mem member, Finset.sdiff_singleton_eq_erase,
    ← Finset.add_sum_erase _ f member]
  omega

/-- Lowering one positive term of a sum by one. -/
theorem sum_update_pred {index bound : Nat} (f : Nat → Nat) (below : index < bound)
    (positive : 0 < f index) :
    ∑ i ∈ Finset.range bound, Function.update f index (f index - 1) i + 1 =
      ∑ i ∈ Finset.range bound, f i := by
  have member : index ∈ Finset.range bound := Finset.mem_range.mpr below
  rw [Finset.sum_update_of_mem member, Finset.sdiff_singleton_eq_erase,
    ← Finset.add_sum_erase _ f member]
  omega

/-- The search of `tm_find_ring` stops at a ring it looked at. -/
theorem tmFindOffset_le (left idx : Nat) : (tmFindOffset left idx).1 ≤ idx := by
  induction idx with
  | zero => exact le_refl 0
  | succ idx ih =>
      unfold tmFindOffset
      dsimp only
      split
      · exact le_refl _
      · exact ih.trans (Nat.le_succ idx)

/-- `tm_find_ring` picks a slot of the wheel. -/
theorem tmFindRing_inside (s : State Timer Cb World) (timer : Timer) :
    (tmFindRing s timer).1 < tmRing ∧ (tmFindRing s timer).2 < tmSlot := by
  constructor
  · have stopped := tmFindOffset_le (tmLeft s timer) tmRingmax
    simp only [tmFindRing, tmRingmax, tmRing, tmBit] at stopped ⊢
    omega
  · change _ &&& tmMask < tmSlot
    rw [and_tmMask]
    exact Nat.mod_lt _ (by decide)

variable [DecidableEq Timer]

/-- `tm_insert` enters a timer that is not pending. -/
theorem tmInsert_accounts (accounts : Accounts s) (idle : (s.node timer).pending = false) :
    Accounts (tmInsert s timer) := by
  obtain ⟨ringInside, slotInside⟩ := tmFindRing_inside s timer
  have pendingTimers : (tmInsert s timer).pendingTimers = insert timer s.pendingTimers := by
    ext other
    by_cases same : other = timer
    · subst other
      simp only [State.pendingTimers, Set.mem_ofPred_eq, tmInsert_node_self, Set.mem_insert_iff,
        true_or]
    · simp only [State.pendingTimers, Set.mem_ofPred_eq, tmInsert_node_of_ne same,
        Set.mem_insert_iff, same, false_or]
  have absent : timer ∉ s.pendingTimers := by
    simp only [State.pendingTimers, Set.mem_ofPred_eq, idle, Bool.false_eq_true, not_false_eq_true]
  refine {
    linked := tmInsert_linked accounts.linked idle
    inside := ?_
    slots := ?_
    rings := ?_
    total := ?_
    finite := ?_
    pending := ?_ }
  · intro other member
    by_cases same : other = timer
    · subst other
      rw [tmInsert_node_self]
      exact ⟨ringInside, slotInside⟩
    · rw [tmInsert_node_of_ne same]
      rw [pendingTimers] at member
      exact accounts.inside other (member.resolve_left same)
  · intro ring slot
    simp only [tmInsert, setAt_apply]
    split
    · rw [List.length_cons, accounts.slots]
    · exact accounts.slots ring slot
  · intro ring
    by_cases same : ring = (tmFindRing s timer).1
    · subst ring
      simp only [tmInsert, setAt, Function.update_self, accounts.rings]
      exact (sum_update_succ _ slotInside).symm
    · simp only [tmInsert, setAt, Function.update_of_ne same, accounts.rings]
  · simp only [tmInsert, accounts.total]
    exact (sum_update_succ _ ringInside).symm
  · rw [pendingTimers]
    exact accounts.finite.insert timer
  · rw [pendingTimers, Set.ncard_insert_of_notMem absent accounts.finite, ← accounts.pending]
    rfl

omit [DecidableEq Timer] in
/-- A pending timer is counted by its slot, by its ring and by the clock. -/
theorem Accounts.counted (accounts : Accounts s) (pending : (s.node timer).pending = true) :
    0 < s.slotCount (s.node timer).ringIdx (s.node timer).ringSlot ∧
      0 < s.ringCount (s.node timer).ringIdx ∧ 0 < s.count := by
  obtain ⟨ringInside, slotInside⟩ := accounts.inside timer pending
  have slot : 0 < s.slotCount (s.node timer).ringIdx (s.node timer).ringSlot := by
    rw [accounts.slots]
    exact List.length_pos_of_mem ((accounts.linked.mem _ _ timer).mpr ⟨pending, rfl, rfl⟩)
  have ring : 0 < s.ringCount (s.node timer).ringIdx := by
    rw [accounts.rings]
    exact slot.trans_le (Finset.single_le_sum (fun _ _ => Nat.zero_le _)
      (Finset.mem_range.mpr slotInside))
  refine ⟨slot, ring, ?_⟩
  rw [accounts.total]
  exact ring.trans_le (Finset.single_le_sum (fun _ _ => Nat.zero_le _)
    (Finset.mem_range.mpr ringInside))

/-- `tm_remove` takes a pending timer off the accounts. -/
theorem tmRemove_accounts (accounts : Accounts s) (pending : (s.node timer).pending = true) :
    Accounts (tmRemove s timer) ∧ (tmRemove s timer).count + 1 = s.count := by
  obtain ⟨ringInside, slotInside⟩ := accounts.inside timer pending
  obtain ⟨slotPositive, ringPositive, positive⟩ := accounts.counted pending
  have pendingTimers : (tmRemove s timer).pendingTimers = s.pendingTimers \ {timer} := by
    ext other
    by_cases same : other = timer
    · subst other
      simp only [State.pendingTimers, Set.mem_ofPred_eq, tmRemove_node_self, Bool.false_eq_true,
        Set.mem_sdiff, Set.mem_singleton_iff, not_true_eq_false, and_false]
    · simp only [State.pendingTimers, Set.mem_ofPred_eq, tmRemove_node_of_ne same, Set.mem_sdiff,
        Set.mem_singleton_iff, same, not_false_eq_true, and_true]
  have count : (tmRemove s timer).count + 1 = s.count := Nat.sub_add_cancel positive
  refine ⟨{
    linked := tmRemove_linked accounts.linked
    inside := ?_
    slots := ?_
    rings := ?_
    total := ?_
    finite := ?_
    pending := ?_ }, count⟩
  · intro other member
    rw [pendingTimers] at member
    rw [tmRemove_node_of_ne member.2]
    exact accounts.inside other member.1
  · intro ring slot
    simp only [tmRemove, setAt_apply, accounts.slots]
    split
    · rename_i here
      rw [here.1, here.2, List.length_erase_of_mem
        ((accounts.linked.mem _ _ timer).mpr ⟨pending, rfl, rfl⟩)]
    · rename_i elsewhere
      rw [List.erase_of_not_mem]
      intro member
      obtain ⟨_, sameRing, sameSlot⟩ := (accounts.linked.mem _ _ timer).mp member
      exact elsewhere ⟨sameRing.symm, sameSlot.symm⟩
  · intro ring
    by_cases same : ring = (s.node timer).ringIdx
    · subst ring
      have lowered := sum_update_pred (s.slotCount (s.node timer).ringIdx) slotInside slotPositive
      simp only [tmRemove, setAt, Function.update_self, accounts.rings]
      omega
    · simp only [tmRemove, setAt, Function.update_of_ne same, accounts.rings]
  · have lowered := sum_update_pred s.ringCount ringInside ringPositive
    have total := accounts.total
    simp only [tmRemove]
    omega
  · rw [pendingTimers]
    exact accounts.finite.sdiff
  · have member : timer ∈ s.pendingTimers := pending
    rw [pendingTimers, Set.ncard_sdiff_singleton_of_mem member, ← accounts.pending]
    rfl

/-- The runs in a part of the log that are of timers that do not repeat. -/
def oneShots (s : State Timer Cb World) (fired : List (Nat × Timer)) : Nat :=
  fired.countP fun entry => !(s.node entry.2).cycle

/-- What a tick, or a part of one, does to the accounts: the timers stay as repeating
as they were, and a timer that does not repeat leaves the count when it runs. -/
structure Ran (s s' : State Timer Cb World) : Prop where
  accounts : Accounts s'
  cycle : ∀ timer, (s'.node timer).cycle = (s.node timer).cycle
  inserted : s'.inserted = s.inserted
  removed : s'.removed = s.removed
  log : ∃ fired, s'.log = fired ++ s.log ∧ s'.count + oneShots s fired = s.count

omit [DecidableEq Timer] in
theorem Ran.refl (accounts : Accounts s) : Ran s s where
  accounts := accounts
  cycle := fun _ => rfl
  inserted := rfl
  removed := rfl
  log := ⟨[], rfl, rfl⟩

omit [DecidableEq Timer] in
theorem Ran.trans {s'' : State Timer Cb World} (first : Ran s s') (second : Ran s' s'') :
    Ran s s'' where
  accounts := second.accounts
  cycle := fun timer => (second.cycle timer).trans (first.cycle timer)
  inserted := second.inserted.trans first.inserted
  removed := second.removed.trans first.removed
  log := by
    obtain ⟨early, earlyLog, earlyCount⟩ := first.log
    obtain ⟨late, lateLog, lateCount⟩ := second.log
    refine ⟨late ++ early, ?_, ?_⟩
    · rw [lateLog, earlyLog, List.append_assoc]
    · have sameShots : oneShots s late = oneShots s' late := by
        simp only [oneShots, first.cycle]
      have appended : oneShots s (late ++ early) = oneShots s late + oneShots s early :=
        List.countP_append
      omega

omit [DecidableEq Timer] in
/-- A callback moves no count of timers. -/
theorem tmCall_counts (invoke : Cb → Timer → World → Int × World) (s : State Timer Cb World)
    (timer : Timer) :
    (tmCall invoke s timer).2.slotCount = s.slotCount ∧
      (tmCall invoke s timer).2.ringCount = s.ringCount ∧
      (tmCall invoke s timer).2.count = s.count ∧
      (tmCall invoke s timer).2.inserted = s.inserted ∧
      (tmCall invoke s timer).2.removed = s.removed := by
  unfold tmCall
  dsimp only
  split <;> exact ⟨rfl, rfl, rfl, rfl, rfl⟩

omit [DecidableEq Timer] in
theorem tmCall_accounts (invoke : Cb → Timer → World → Int × World) (accounts : Accounts s) :
    Accounts (tmCall invoke s timer).2 := by
  obtain ⟨_, _, sameList, sameNode, _⟩ := tmCall_spec invoke s timer
  obtain ⟨slotCount, ringCount, count, _⟩ := tmCall_counts invoke s timer
  apply accounts.congr sameList slotCount ringCount count
  all_goals
    intro other
    simp only [sameNode, implies_true, and_self]

theorem resetCreate_accounts (accounts : Accounts s) : Accounts (resetCreate s timer) := by
  have nodes : ∀ other, ((resetCreate s timer).node other).pending = (s.node other).pending ∧
      ((resetCreate s timer).node other).ringIdx = (s.node other).ringIdx ∧
      ((resetCreate s timer).node other).ringSlot = (s.node other).ringSlot := by
    intro other
    by_cases same : other = timer
    · subst other
      rw [resetCreate_node_self]
      exact ⟨rfl, rfl, rfl⟩
    · rw [resetCreate_node_of_ne same]
      exact ⟨rfl, rfl, rfl⟩
  exact accounts.congr rfl rfl rfl rfl (fun other => (nodes other).1)
    (fun other _ => (nodes other).2)

theorem tmInsert_cycle (other : Timer) :
    ((tmInsert s timer).node other).cycle = (s.node other).cycle := by
  by_cases same : other = timer
  · subst other
    rw [tmInsert_node_self]
  · rw [tmInsert_node_of_ne same]

theorem tmRemove_cycle (other : Timer) :
    ((tmRemove s timer).node other).cycle = (s.node other).cycle := by
  by_cases same : other = timer
  · subst other
    rw [tmRemove_node_self]
  · rw [tmRemove_node_of_ne same]

theorem resetCreate_cycle (other : Timer) :
    ((resetCreate s timer).node other).cycle = (s.node other).cycle := by
  by_cases same : other = timer
  · subst other
    rw [resetCreate_node_self]
  · rw [resetCreate_node_of_ne same]

/-- A timer that runs and does not repeat. -/
theorem tmCall_ran (invoke : Cb → Timer → World → Int × World) (accounts : Accounts s)
    (pending : (s.node timer).pending = true) (single : (s.node timer).cycle = false) :
    Ran s (tmCall invoke (tmRemove s timer) timer).2 := by
  obtain ⟨removed, count⟩ := tmRemove_accounts accounts pending
  obtain ⟨_, _, _, sameNode, log⟩ := tmCall_spec invoke (tmRemove s timer) timer
  obtain ⟨_, _, sameCount, sameInserted, sameRemoved⟩ :=
    tmCall_counts invoke (tmRemove s timer) timer
  refine {
    accounts := tmCall_accounts invoke removed
    cycle := fun other => by rw [sameNode, tmRemove_cycle]
    inserted := sameInserted
    removed := sameRemoved
    log := ⟨[(s.ticks, timer)], log, ?_⟩ }
  have shot : oneShots s [(s.ticks, timer)] = 1 := by
    simp only [oneShots, List.countP_singleton, single, Bool.not_false, ↓reduceIte]
  rw [sameCount, shot, count]

/-- A timer that runs and repeats. -/
theorem rearm_ran (invoke : Cb → Timer → World → Int × World) (accounts : Accounts s)
    (pending : (s.node timer).pending = true) (cyclic : (s.node timer).cycle = true) :
    Ran s (tmInsert (resetCreate (tmCall invoke (tmRemove s timer) timer).2 timer) timer) := by
  obtain ⟨removed, count⟩ := tmRemove_accounts accounts pending
  obtain ⟨_, _, _, sameNode, log⟩ := tmCall_spec invoke (tmRemove s timer) timer
  obtain ⟨_, _, sameCount, sameInserted, sameRemoved⟩ :=
    tmCall_counts invoke (tmRemove s timer) timer
  refine {
    accounts := ?_
    cycle := fun other => by rw [tmInsert_cycle, resetCreate_cycle, sameNode, tmRemove_cycle]
    inserted := sameInserted
    removed := sameRemoved
    log := ⟨[(s.ticks, timer)], log, ?_⟩ }
  · apply tmInsert_accounts (resetCreate_accounts (tmCall_accounts invoke removed))
    rw [resetCreate_node_self, sameNode, tmRemove_node_self]
  · have shot : oneShots s [(s.ticks, timer)] = 0 := by
      simp only [oneShots, List.countP_singleton, cyclic, Bool.not_true, Bool.false_eq_true,
        ↓reduceIte]
    rw [shot, ← count, ← sameCount]
    rfl

/-- A timer that is filed anew. -/
theorem refile_ran (accounts : Accounts s) (pending : (s.node timer).pending = true) :
    Ran s (tmInsert (tmRemove s timer) timer) := by
  obtain ⟨removed, count⟩ := tmRemove_accounts accounts pending
  refine {
    accounts := tmInsert_accounts removed (by rw [tmRemove_node_self])
    cycle := fun other => by rw [tmInsert_cycle, tmRemove_cycle]
    inserted := rfl
    removed := rfl
    log := ⟨[], rfl, count⟩ }

/-- The loop body of `tm_ring_trigger` on a pending timer. -/
theorem tmVisit_ran (invoke : Cb → Timer → World → Int × World)
    (acc : Int × State Timer Cb World) (accounts : Accounts acc.2)
    (pending : (acc.2.node timer).pending = true) :
    Ran acc.2 (tmVisit invoke acc timer).2 := by
  have sameCycle : ((tmCall invoke (tmRemove acc.2 timer) timer).2.node timer).cycle =
      (acc.2.node timer).cycle := by
    rw [(tmCall_spec invoke (tmRemove acc.2 timer) timer).2.2.2.1, tmRemove_cycle]
  by_cases timeout : tmLeft acc.2 timer = 0
  · cases cycle : (acc.2.node timer).cycle with
    | false =>
        simp only [tmVisit, timeout, ↓reduceIte, sameCycle, cycle, Bool.false_eq_true]
        exact tmCall_ran invoke accounts pending cycle
    | true =>
        simp only [tmVisit, timeout, ↓reduceIte, sameCycle, cycle]
        exact rearm_ran invoke accounts pending cycle
  · simp only [tmVisit, timeout, ↓reduceIte]
    exact refile_ran accounts pending

/-- A visit leaves the other timers, the cursors and the tick alone. -/
theorem tmVisit_frame (invoke : Cb → Timer → World → Int × World)
    (acc : Int × State Timer Cb World) (timer : Timer) :
    (∀ other, other ≠ timer → (tmVisit invoke acc timer).2.node other = acc.2.node other) ∧
      (tmVisit invoke acc timer).2.current = acc.2.current ∧
      (tmVisit invoke acc timer).2.ticks = acc.2.ticks := by
  obtain ⟨sameTicks, sameCurrent, _, sameNode, _⟩ :=
    tmCall_spec invoke (tmRemove acc.2 timer) timer
  unfold tmVisit
  dsimp only
  split
  · split
    · refine ⟨?_, sameCurrent, sameTicks⟩
      intro other different
      rw [tmInsert_node_of_ne different, resetCreate_node_of_ne different, sameNode,
        tmRemove_node_of_ne different]
    · refine ⟨?_, sameCurrent, sameTicks⟩
      intro other different
      rw [sameNode, tmRemove_node_of_ne different]
  · refine ⟨?_, rfl, rfl⟩
    intro other different
    rw [tmInsert_node_of_ne different, tmRemove_node_of_ne different]

/-- The visits of a slot. -/
theorem foldl_tmVisit_ran (invoke : Cb → Timer → World → Int × World) (rest : List Timer)
    (acc : Int × State Timer Cb World) (accounts : Accounts acc.2) (nodup : rest.Nodup)
    (pending : ∀ timer ∈ rest, (acc.2.node timer).pending = true) :
    Ran acc.2 (rest.foldl (tmVisit invoke) acc).2 ∧
      (rest.foldl (tmVisit invoke) acc).2.current = acc.2.current ∧
      (rest.foldl (tmVisit invoke) acc).2.ticks = acc.2.ticks := by
  induction rest generalizing acc with
  | nil => exact ⟨Ran.refl accounts, rfl, rfl⟩
  | cons timer rest ih =>
      obtain ⟨fresh, nodupRest⟩ := List.nodup_cons.mp nodup
      obtain ⟨others, current, ticks⟩ := tmVisit_frame invoke acc timer
      have here := tmVisit_ran invoke acc accounts (pending timer (List.mem_cons_self ..))
      have still : ∀ other ∈ rest, ((tmVisit invoke acc timer).2.node other).pending = true := by
        intro other member
        rw [others other fun same => fresh (same ▸ member)]
        exact pending other (List.mem_cons_of_mem _ member)
      obtain ⟨later, laterCurrent, laterTicks⟩ := ih _ here.accounts nodupRest still
      exact ⟨here.trans later, laterCurrent.trans current, laterTicks.trans ticks⟩

/-- Advancing a ring and running its slot. -/
theorem tmRingTrigger_ran (invoke : Cb → Timer → World → Int × World) (ring : Nat)
    (accounts : Accounts s) :
    Ran s (tmRingTrigger invoke (advance s ring) ring).2 ∧
      (tmRingTrigger invoke (advance s ring) ring).2.current = (advance s ring).current ∧
      (tmRingTrigger invoke (advance s ring) ring).2.ticks = s.ticks := by
  have advanced : Accounts (advance s ring) :=
    accounts.congr rfl rfl rfl rfl (fun _ => rfl) (fun _ _ => ⟨rfl, rfl⟩)
  obtain ⟨ran, current, ticks⟩ := foldl_tmVisit_ran invoke _ (0, advance s ring) advanced
    (accounts.linked.nodup ring ((advance s ring).current ring))
    (fun timer member => ((accounts.linked.mem _ _ timer).mp member).1)
  exact ⟨⟨ran.accounts, ran.cycle, ran.inserted, ran.removed, ran.log⟩, current, ticks⟩

/-- `tm_trigger` from a ring whose period divides the new tick. -/
theorem tmTrigger_ran (invoke : Cb → Timer → World → Int × World) {now ring : Nat}
    (accounts : Accounts s)
    (rings : ∀ other < tmRing, s.current other = shown now ring other / 256 ^ other % 256)
    (inside : ring < tmRing) (divides : 256 ^ ring ∣ now + 1) :
    Ran s (tmTrigger invoke s ring).2 ∧
      (∀ other < tmRing,
        (tmTrigger invoke s ring).2.current other = (now + 1) / 256 ^ other % 256) ∧
      (tmTrigger invoke s ring).2.ticks = s.ticks := by
  induction s, ring using tmTrigger.induct invoke with
  | case1 s ring advanced here carry ih =>
      obtain ⟨ran, current, ticks⟩ := tmRingTrigger_ran invoke ring accounts
      obtain ⟨shows, advancedRings⟩ := advance_current rings inside divides
      rw [tmTrigger, if_pos carry]
      have zero : (now + 1) / 256 ^ ring % 256 = 0 := by
        rw [← shows, ← current]
        exact carry.1
      obtain ⟨carried, carriedCurrent, carriedTicks⟩ := ih ran.accounts
        (fun other below => by rw [← advancedRings other below, ← current]; rfl)
        (by have top := carry.2; simp only [tmRingmax] at top; omega)
        (Radix.dvd_succ_of_digit_zero divides zero)
      exact ⟨ran.trans carried, carriedCurrent, carriedTicks.trans ticks⟩
  | case2 s ring advanced here stop =>
      obtain ⟨ran, current, ticks⟩ := tmRingTrigger_ran invoke ring accounts
      obtain ⟨shows, advancedRings⟩ := advance_current rings inside divides
      rw [tmTrigger, if_neg stop]
      refine ⟨ran, ?_, ticks⟩
      have stops : Stops now ring :=
        stops_of_not_carry (s := here.2) ((congrFun current ring).trans shows) inside stop
      intro other below
      rw [← stops.shown_digit below, ← advancedRings other below, ← current]
      rfl

omit [DecidableEq Timer] in
/-- The cursors, as digits to base 256. -/
theorem cursors_iff : Cursors s ↔ ∀ ring < tmRing, s.current ring = s.ticks / 256 ^ ring % 256 := by
  unfold Cursors
  refine forall₂_congr fun ring _ => ?_
  rw [and_tmMask, Nat.shiftRight_eq_div_pow, pow_mul]
  rfl

/-- A round of `os_tm_trigger`. The digits the rings show are those of the tick before
it wraps, which the wrap does not change. -/
theorem tick_ran (invoke : Cb → Timer → World → Int × World) (accounts : Accounts s)
    (cursors : Cursors s) : Ran s (tick invoke s).2 ∧ Cursors (tick invoke s).2 := by
  rw [cursors_iff] at cursors ⊢
  have started : Accounts { s with ticks := (s.ticks + 1) % 2 ^ 64 } :=
    accounts.congr rfl rfl rfl rfl (fun _ => rfl) (fun _ _ => ⟨rfl, rfl⟩)
  have rings : ∀ ring < tmRing, s.current ring = shown s.ticks 0 ring / 256 ^ ring % 256 := by
    intro ring below
    rw [shown, if_neg (Nat.not_lt_zero ring)]
    exact cursors ring below
  obtain ⟨ran, current, ticks⟩ := tmTrigger_ran invoke started rings (by decide) (one_dvd _)
  refine ⟨⟨ran.accounts, ran.cycle, ran.inserted, ran.removed, ran.log⟩, ?_⟩
  intro ring below
  have wrapped : (s.ticks + 1) % 2 ^ 64 / 256 ^ ring % 256 = (s.ticks + 1) / 256 ^ ring % 256 := by
    have small : ring < 4 := below
    obtain rfl | rfl | rfl | rfl : ring = 0 ∨ ring = 1 ∨ ring = 2 ∨ ring = 3 := by omega
    all_goals omega
  have shownTicks : (tick invoke s).2.ticks = (s.ticks + 1) % 2 ^ 64 := ticks
  rw [shownTicks, wrapped]
  exact current ring below

theorem iterate_tick_ran (invoke : Cb → Timer → World → Int × World) (times : Nat)
    (accounts : Accounts s) (cursors : Cursors s) :
    Ran s ((fun s => (tick invoke s).2)^[times] s) ∧
      Cursors ((fun s => (tick invoke s).2)^[times] s) := by
  induction times generalizing s with
  | zero => exact ⟨Ran.refl accounts, cursors⟩
  | succ times ih =>
      obtain ⟨ran, shows⟩ := tick_ran invoke accounts cursors
      obtain ⟨later, laterShows⟩ := ih ran.accounts shows
      rw [Function.iterate_succ_apply]
      exact ⟨ran.trans later, laterShows⟩

/-- The callbacks a call ran: the entries it put on the log. -/
def firedIn (s s' : State Timer Cb World) : List (Nat × Timer) :=
  s'.log.take (s'.log.length - s.log.length)

/-- The runs of callbacks of timers that do not repeat, over a sequence of calls. -/
def oneShotFirings (invoke : Cb → Timer → World → Int × World) :
    State Timer Cb World → List (Op Timer Cb) → Nat
  | _, [] => 0
  | s, op :: ops =>
      oneShots s (firedIn s (step invoke s op)) + oneShotFirings invoke (step invoke s op) ops

/-- What a call adds to the totals: an insertion enters the count, a removal or the
run of a timer that does not repeat leaves it. -/
structure Balanced (s s' : State Timer Cb World) : Prop where
  accounts : Accounts s'
  cursors : Cursors s'
  totals : s'.inserted + s.removed + s.count =
    s.inserted + s'.removed + oneShots s (firedIn s s') + s'.count

omit [DecidableEq Timer] in
/-- A call that runs no callback. -/
theorem Balanced.of_log (log : s'.log = s.log) (accounts : Accounts s') (cursors : Cursors s')
    (totals : s'.inserted + s.removed + s.count = s.inserted + s'.removed + s'.count) :
    Balanced s s' := by
  refine ⟨accounts, cursors, ?_⟩
  have none : firedIn s s' = [] := by
    simp only [firedIn, log, Nat.sub_self, List.take_zero]
  have shots : oneShots s (firedIn s s') = 0 := by
    rw [none]
    rfl
  omega

/-- A node that is not pending may be rewritten. -/
theorem Accounts.setNode (accounts : Accounts s) (idle : (s.node timer).pending = false)
    (fields : TmNode Cb) (stillIdle : fields.pending = false) :
    Accounts { s with node := Function.update s.node timer fields } := by
  refine accounts.congr rfl rfl rfl rfl ?_ ?_
  · intro other
    by_cases same : other = timer
    · subst other
      simp only [Function.update_self, stillIdle, idle]
    · simp only [Function.update_of_ne same]
  · intro other pending
    have different : other ≠ timer := by
      intro same
      rw [same, idle] at pending
      exact Bool.false_ne_true pending
    simp only [Function.update_of_ne different, and_self]

theorem osTmInsert_balanced (accounts : Accounts s) (cursors : Cursors s)
    (idle : (s.node timer).pending = false) (after : Int) (cb : Option Cb) (cycle : Bool) :
    Balanced s (osTmInsert s (some timer) after cb cycle).2 := by
  unfold osTmInsert
  dsimp only
  split
  · exact .of_log rfl accounts cursors rfl
  split
  · exact .of_log rfl accounts cursors rfl
  · have armed := accounts.setNode idle { s.node timer with
      create := s.ticks
      expires := after.toNat % 2 ^ 32
      pending := false
      cycle := cycle
      cb := cb } rfl
    refine .of_log rfl ?_ cursors ?_
    · refine (tmInsert_accounts armed ?_).congr rfl rfl rfl rfl (fun _ => rfl) (fun _ _ => ⟨rfl, rfl⟩)
      simp only [Function.update_self]
    · change s.inserted + 1 + s.removed + s.count = s.inserted + s.removed + (s.count + 1)
      omega

theorem osTmRemove_balanced (accounts : Accounts s) (cursors : Cursors s) :
    Balanced s (osTmRemove s (some timer)).2 := by
  unfold osTmRemove
  dsimp only
  split
  · rename_i pending
    obtain ⟨removed, count⟩ := tmRemove_accounts accounts pending
    have idle : ((tmRemove s timer).node timer).pending = false := by rw [tmRemove_node_self]
    have cleared : Accounts { tmRemove s timer with
        node := Function.update (tmRemove s timer).node timer {} } := removed.setNode idle {} rfl
    refine .of_log rfl ?_ cursors ?_
    · exact cleared.congr rfl rfl rfl rfl (fun _ => rfl) (fun _ _ => ⟨rfl, rfl⟩)
    · change s.inserted + s.removed + s.count =
        s.inserted + (s.removed + 1) + (tmRemove s timer).count
      omega
  · exact .of_log rfl accounts cursors rfl

theorem osTmChange_balanced (accounts : Accounts s) (cursors : Cursors s) (after : Nat) :
    Balanced s (osTmChange s (some timer) after).2 := by
  unfold osTmChange
  dsimp only
  split
  · rename_i pending
    obtain ⟨removed, count⟩ := tmRemove_accounts accounts pending
    have idle : ((tmRemove s timer).node timer).pending = false := by rw [tmRemove_node_self]
    refine .of_log rfl (tmInsert_accounts (removed.setNode idle _ ?_) ?_) cursors ?_
    · exact idle
    · simp only [Function.update_self, idle]
    · change s.inserted + s.removed + s.count =
        s.inserted + s.removed + ((tmRemove s timer).count + 1)
      omega
  · exact .of_log rfl accounts cursors rfl

theorem osTmTrigger_balanced (invoke : Cb → Timer → World → Int × World) (accounts : Accounts s)
    (cursors : Cursors s) (times : Nat) : Balanced s (osTmTrigger invoke s times).2 := by
  unfold osTmTrigger
  rw [osTmTriggerLoop_state]
  obtain ⟨ran, shows⟩ := iterate_tick_ran invoke times accounts cursors
  obtain ⟨fired, log, count⟩ := ran.log
  refine ⟨ran.accounts, shows, ?_⟩
  have entries : firedIn s ((fun s => (tick invoke s).2)^[times] s) = fired := by
    simp only [firedIn, log, List.length_append, Nat.add_sub_cancel, List.take_left]
  rw [entries, ran.inserted, ran.removed]
  omega

/-- One legal call keeps the accounts. -/
theorem step_balanced (invoke : Cb → Timer → World → Int × World) (accounts : Accounts s)
    (cursors : Cursors s) (op : Op Timer Cb) (legal : op.Legal s) :
    Balanced s (step invoke s op) := by
  cases op with
  | insert timer after cb cycle => exact osTmInsert_balanced accounts cursors legal.1 ..
  | remove timer => exact osTmRemove_balanced accounts cursors
  | change timer after => exact osTmChange_balanced accounts cursors after
  | trigger times => exact osTmTrigger_balanced invoke accounts cursors times

/-- A run of legal calls keeps the accounts. -/
theorem run_balanced (invoke : Cb → Timer → World → Int × World) (ops : List (Op Timer Cb))
    (accounts : Accounts s) (cursors : Cursors s)
    (allowed : Guarded (step invoke) (fun s op => op.Legal s) s ops) :
    Accounts (run (step invoke) s ops) ∧ Cursors (run (step invoke) s ops) ∧
      (run (step invoke) s ops).inserted + s.removed + s.count =
        s.inserted + (run (step invoke) s ops).removed + oneShotFirings invoke s ops +
          (run (step invoke) s ops).count := by
  induction ops generalizing s with
  | nil => exact ⟨accounts, cursors, rfl⟩
  | cons op ops ih =>
      obtain ⟨legal, later⟩ := allowed
      obtain ⟨nextAccounts, nextCursors, totals⟩ := step_balanced invoke accounts cursors op legal
      obtain ⟨lastAccounts, lastCursors, lastTotals⟩ := ih nextAccounts nextCursors later
      refine ⟨lastAccounts, lastCursors, ?_⟩
      simp only [run_cons, oneShotFirings]
      omega

/-- After every run of legal calls the lists, the counts and the cursors agree: a
pending timer is on the list its node records and on no other, the slots count their
lists, the rings their slots, the clock its rings and the pending timers, every cursor
shows its digit of the tick, and every timer inserted was removed, ran as a one-shot,
or is still pending. -/
theorem wheel_accounts (invoke : Cb → Timer → World → Int × World) (world : World)
    (ops : List (Op Timer Cb))
    (allowed : Guarded (step invoke) (fun s op => op.Legal s) (init world) ops) :
    Accounts (run (step invoke) (init world) ops) ∧
      Cursors (run (step invoke) (init world) ops) ∧
      (run (step invoke) (init world) ops).inserted =
        (run (step invoke) (init world) ops).removed +
          oneShotFirings invoke (init world) ops +
          (run (step invoke) (init world) ops).count := by
  obtain ⟨accounts, cursors, totals⟩ :=
    run_balanced invoke ops (accounts_init world) (cursors_init world) allowed
  refine ⟨accounts, cursors, ?_⟩
  simpa only [init, Nat.add_zero, Nat.zero_add] using totals

/-- A one-shot and a repeating timer taken through ten ticks: the one-shot ran. -/
theorem wheel_accounts_one_shot :
    (run (step fun (_ : Unit) (_ : Bool) (calls : Nat) => (0, calls + 1)) (init 0)
        [.insert true 3 () true, .insert false 5 () false, .change true 7, .trigger 10]).inserted =
      (run (step fun (_ : Unit) (_ : Bool) (calls : Nat) => (0, calls + 1)) (init 0)
        [.insert true 3 () true, .insert false 5 () false, .change true 7,
          .trigger 10]).removed +
        oneShotFirings (fun (_ : Unit) (_ : Bool) (calls : Nat) => (0, calls + 1)) (init 0)
          [.insert true 3 () true, .insert false 5 () false, .change true 7, .trigger 10] +
        (run (step fun (_ : Unit) (_ : Bool) (calls : Nat) => (0, calls + 1)) (init 0)
          [.insert true 3 () true, .insert false 5 () false, .change true 7,
            .trigger 10]).count := by
  refine (wheel_accounts _ 0 _ ?_).2.2
  refine ⟨?_, ?_, ?_, ?_, trivial⟩ <;> decide

end Trunk.Timer
