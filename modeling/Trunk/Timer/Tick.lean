import Trunk.Timer.Carry

/-! # A tick refines the naive tick

The visits of a slot, the carry through the rings and the whole of one round of
`os_tm_trigger`, each as a step from one `Trunk.Timer.Sweep` to the next. When the
carry stops, no ring is left that could still be run at the new tick, so every
pending timer waits strictly longer and every timer that was due has run.
-/

namespace Trunk.Timer

variable {Timer Cb World : Type} [DecidableEq Timer] {n : Naive Timer} {stage ring : Nat}
  {rest : List Timer} {s : State Timer Cb World}

/-- Every repeating timer due at the next tick is armed again within the 64-bit
clock. -/
def Naive.Rearms (n : Naive Timer) : Prop :=
  ∀ timer armed, n.armed timer = some armed → armed.cycle = true →
    armed.deadline = n.now + 1 → n.now + 1 + armed.expires < 2 ^ 64

/-- The loop body of `tm_ring_trigger` keeps the sweep. -/
theorem tmVisit_sweep (invoke : Cb → Timer → World → Int × World) (rearms : n.Rearms)
    {timer : Timer} {acc : Int × State Timer Cb World}
    (sweep : Sweep n stage (timer :: rest) acc.2) :
    Sweep n stage rest (tmVisit invoke acc timer).2 := by
  obtain ⟨count, s⟩ := acc
  simp only at sweep
  have sameCycle : ((tmCall invoke (tmRemove s timer) timer).2.node timer).cycle =
      (s.node timer).cycle := by
    rw [(tmCall_spec invoke (tmRemove s timer) timer).2.2.2.1, tmRemove_node_self]
  by_cases timeout : tmLeft s timer = 0
  · cases cycle : (s.node timer).cycle with
    | false =>
        simp only [tmVisit, timeout, ↓reduceIte, sameCycle, cycle, Bool.false_eq_true]
        exact sweep.retire invoke timeout cycle
    | true =>
        have pending := sweep.queued timer (List.mem_cons_self ..)
        have reached : (s.node timer).deadline = n.now + 1 := by
          have left := (sweep.left_eq pending).2
          have reach := (sweep.range timer pending).reach
          omega
        simp only [tmVisit, timeout, ↓reduceIte, sameCycle, cycle]
        refine sweep.rearm invoke timeout cycle ?_
        exact rearms timer _ (sweep.due_entry pending reached).1 cycle reached
  · simp only [tmVisit, timeout, ↓reduceIte]
    exact sweep.refile timeout

/-- `tm_ring_trigger` visits the whole slot. -/
theorem foldl_tmVisit_sweep (invoke : Cb → Timer → World → Int × World) (rearms : n.Rearms)
    (rest : List Timer) (acc : Int × State Timer Cb World) (sweep : Sweep n stage rest acc.2) :
    Sweep n stage [] (rest.foldl (tmVisit invoke) acc).2 := by
  induction rest generalizing acc with
  | nil => exact sweep
  | cons timer rest ih => exact ih _ (tmVisit_sweep invoke rearms sweep)

/-- The state in which `tm_trigger` has advanced a ring. -/
def advance (s : State Timer Cb World) (ring : Nat) : State Timer Cb World :=
  { s with current := Function.update s.current ring ((s.current ring + 1) &&& tmMask) }

omit [DecidableEq Timer] in
/-- Advancing a ring at a multiple of its period makes it show the new tick. -/
theorem advance_current {now : Nat} (rings : ∀ ring < tmRing,
      s.current ring = shown now stage ring / 256 ^ ring % 256)
    (inside : stage < tmRing) (divides : 256 ^ stage ∣ now + 1) :
    (advance s stage).current stage = (now + 1) / 256 ^ stage % 256 ∧
      ∀ ring < tmRing,
        (advance s stage).current ring = shown now (stage + 1) ring / 256 ^ ring % 256 := by
  have here : (advance s stage).current stage = (now + 1) / 256 ^ stage % 256 := by
    have before : s.current stage = now / 256 ^ stage % 256 := by
      rw [rings stage inside, shown, if_neg (lt_irrefl stage)]
    simp only [advance, Function.update_self, and_tmMask]
    rw [Radix.digit_succ, if_pos divides, before]
  refine ⟨here, ?_⟩
  intro ring below
  by_cases same : ring = stage
  · subst ring
    rw [here, shown, if_pos (Nat.lt_succ_self stage)]
  · have unchanged : (advance s stage).current ring = s.current ring :=
      Function.update_of_ne same ..
    have sameTick : shown now (stage + 1) ring = shown now stage ring := by
      simp only [shown, show ring < stage + 1 ↔ ring < stage by omega]
    rw [unchanged, rings ring below, sameTick]

/-- Entering a ring: the timers of its slot are to be visited, and every other
timer's visit at this tick is by a ring above. -/
theorem Sweep.enter (sweep : Sweep n stage [] s) (inside : stage < tmRing)
    (divides : 256 ^ stage ∣ n.now + 1) :
    Sweep n (stage + 1) ((advance s stage).slotList stage ((advance s stage).current stage))
      (advance s stage) := by
  obtain ⟨here, rings⟩ := advance_current sweep.rings inside divides
  have linked : Linked (advance s stage) :=
    sweep.linked.congr rfl (fun _ => rfl) (fun _ _ => rfl) (fun _ _ => rfl)
  refine {
    linked := linked
    ticks := sweep.ticks
    rings := rings
    once := sweep.once
    past := sweep.past
    early := sweep.early
    due := sweep.due
    nodup := linked.nodup ..
    queued := fun timer member => ((linked.mem _ _ timer).mp member).1
    range := sweep.range
    waiting := ?_
    view := sweep.view }
  intro timer pending absent
  obtain ⟨ring, visit, reach, before, shows, order⟩ :=
    sweep.waiting timer pending (List.not_mem_nil)
  refine ⟨ring, visit, reach, before, shows, ?_⟩
  intro atTick
  have above := order atTick
  rcases Nat.eq_or_lt_of_le above with same | higher
  · -- a visit of this ring at this tick is a visit of the slot being run
    exfalso
    apply absent
    refine (linked.mem _ _ timer).mpr ⟨pending, same.symm, ?_⟩
    have position := shows.position_eq (by decide)
    rw [atTick, ← same] at position
    rw [here]
    exact position
  · exact higher

/-- The carry stops after ring `stage`: it does not show zero, or it is the last. -/
def Stops (now stage : Nat) : Prop := (now + 1) / 256 ^ stage % 256 ≠ 0 ∨ stage = tmRingmax

omit [DecidableEq Timer] in
/-- No ring above the one the carry stops at advances in this tick. -/
theorem Stops.not_dvd {now : Nat} (stops : Stops now stage) (above : stage + 1 ≤ ring)
    (inside : ring < tmRing) : ¬ 256 ^ ring ∣ now + 1 := by
  intro divides
  rcases stops with digit | top
  · exact Radix.not_dvd_of_digit_ne_zero digit (dvd_trans (pow_dvd_pow 256 above) divides)
  · simp only [tmRingmax] at top
    omega

omit [DecidableEq Timer] in
/-- When the carry stops, every ring shows the new tick. -/
theorem Stops.shown_digit {now : Nat} (stops : Stops now stage) (inside : ring < tmRing) :
    shown now (stage + 1) ring / 256 ^ ring % 256 = (now + 1) / 256 ^ ring % 256 := by
  by_cases below : ring < stage + 1
  · rw [shown, if_pos below]
  · rw [shown, if_neg below, Radix.digit_succ,
      if_neg (stops.not_dvd (not_lt.mp below) inside)]

omit [DecidableEq Timer] in
/-- The test of `tm_trigger` that ends the carry. -/
theorem stops_of_not_carry {now : Nat}
    (shows : s.current ring = (now + 1) / 256 ^ ring % 256) (inside : ring < tmRing)
    (stop : ¬ (s.current ring = 0 ∧ ring < tmRingmax)) : Stops now ring := by
  by_cases digit : (now + 1) / 256 ^ ring % 256 = 0
  · right
    have top : ¬ ring < tmRingmax := fun below => stop ⟨shows.trans digit, below⟩
    simp only [tmRingmax] at top ⊢
    omega
  · exact .inl digit

/-- When the carry stops, every pending timer waits for a later tick. -/
theorem Sweep.later (sweep : Sweep n (stage + 1) [] s) (stops : Stops n.now stage)
    {timer : Timer} (pending : (s.node timer).pending = true) :
    ∃ visit, n.now + 1 < visit ∧ visit ≤ (s.node timer).deadline ∧
      Radix.Shows 256 (s.node timer).ringIdx (s.node timer).ringSlot visit := by
  obtain ⟨inside, visit, reach, before, shows, order⟩ :=
    sweep.waiting timer pending List.not_mem_nil
  refine ⟨visit, lt_of_le_of_ne reach fun same => ?_, before, shows⟩
  have divides := shows.dvd
  rw [← same] at divides
  exact stops.not_dvd (order same.symm) inside divides

/-- When the carry stops, the timers that ran in the tick are those that were due. -/
theorem Sweep.fired_iff (sweep : Sweep n (stage + 1) [] s) (stops : Stops n.now stage)
    (timer : Timer) : (n.now + 1, timer) ∈ s.log ↔ timer ∈ n.due := by
  refine ⟨sweep.due timer, ?_⟩
  rintro ⟨armed, before, isDue⟩
  by_contra absent
  have view := sweep.view timer
  rw [if_neg absent, before] at view
  unfold TmNode.view at view
  split at view
  · rename_i pending
    obtain ⟨visit, after, inTime, _⟩ := sweep.later stops pending
    have deadline : (s.node timer).deadline = armed.deadline := by
      rw [← Option.some.inj view]
      rfl
    omega
  · cases view

/-- When the carry stops, the tick is over. -/
theorem Sweep.finish (sweep : Sweep n (stage + 1) [] s) (stops : Stops n.now stage) :
    Steady s n.tick := by
  have view : ∀ timer, (s.node timer).view = n.tick.armed timer := by
    intro timer
    rw [sweep.view timer]
    split
    · rfl
    · rename_i absent
      rw [sweep.fired_iff stops] at absent
      cases before : n.armed timer with
      | none => simp only [Naive.tick, before, Option.bind_none]
      | some armed =>
          have notDue : armed.deadline ≠ n.now + 1 := fun isDue => absent ⟨armed, before, isDue⟩
          simp only [Naive.tick, before, Option.bind_some, Armed.expire, notDue, ↓reduceIte]
  have fired : ∀ tick timer, (tick, timer) ∈ s.log ↔ timer ∈ n.tick.fired tick := by
    intro tick timer
    by_cases same : tick = n.now + 1
    · subst tick
      rw [sweep.fired_iff stops]
      simp only [Naive.tick, Function.update_self]
    · rw [sweep.past tick timer same]
      simp only [Naive.tick, Function.update_of_ne same]
  refine {
    refines := ⟨sweep.ticks, view, sweep.once, fired⟩
    linked := sweep.linked
    rings := ?_
    range := ?_
    waiting := ?_
    past := ?_ }
  · intro ring inside
    rw [sweep.rings ring inside]
    exact stops.shown_digit inside
  · intro timer pending
    have range := sweep.range timer pending
    obtain ⟨visit, after, inTime, _⟩ := sweep.later stops pending
    exact ⟨range.positive, range.small, range.created, after.trans_le inTime, range.bounded⟩
  · intro timer pending
    obtain ⟨visit, after, inTime, shows⟩ := sweep.later stops pending
    exact ⟨(sweep.waiting timer pending List.not_mem_nil).ring, visit, after, inTime, shows,
      fun _ => Nat.zero_le _⟩
  · intro tick timer member
    by_cases same : tick = n.now + 1
    · exact same.le
    · simp only [Naive.tick, Function.update_of_ne same] at member
      exact (sweep.early tick timer member).trans (Nat.le_succ _)

/-- Advancing a ring and running its slot, after which the ring shows the new tick. -/
theorem Sweep.runRing (invoke : Cb → Timer → World → Int × World) (rearms : n.Rearms)
    (sweep : Sweep n stage [] s) (inside : stage < tmRing) (divides : 256 ^ stage ∣ n.now + 1) :
    Sweep n (stage + 1) [] (tmRingTrigger invoke (advance s stage) stage).2 ∧
      (tmRingTrigger invoke (advance s stage) stage).2.current stage =
        (n.now + 1) / 256 ^ stage % 256 := by
  have ran : Sweep n (stage + 1) [] (tmRingTrigger invoke (advance s stage) stage).2 :=
    foldl_tmVisit_sweep invoke rearms _ _ (sweep.enter inside divides)
  refine ⟨ran, ?_⟩
  rw [ran.rings stage inside, shown, if_pos (Nat.lt_succ_self stage)]

/-- `tm_trigger` from a ring whose period divides the new tick finishes the tick. -/
theorem tmTrigger_steady (invoke : Cb → Timer → World → Int × World) (rearms : n.Rearms)
    (sweep : Sweep n ring [] s) (inside : ring < tmRing) (divides : 256 ^ ring ∣ n.now + 1) :
    Steady (tmTrigger invoke s ring).2 n.tick := by
  induction s, ring using tmTrigger.induct invoke with
  | case1 s ring advanced here carry ih =>
      obtain ⟨ran, shows⟩ := sweep.runRing invoke rearms inside divides
      rw [tmTrigger, if_pos carry]
      refine ih ran ?_ ?_
      · have top := carry.2
        simp only [tmRingmax] at top
        omega
      · exact Radix.dvd_succ_of_digit_zero divides (shows ▸ carry.1)
  | case2 s ring advanced here stop =>
      obtain ⟨ran, shows⟩ := sweep.runRing invoke rearms inside divides
      rw [tmTrigger, if_neg stop]
      exact ran.finish (stops_of_not_carry shows inside stop)

/-- One round of `os_tm_trigger` is one tick of the naive scheduler. -/
theorem tick_steady (invoke : Cb → Timer → World → Int × World) (steady : Steady s n)
    (rearms : n.Rearms) : Steady (tick invoke s).2 n.tick := by
  have fresh : ∀ timer, (n.now + 1, timer) ∉ s.log := by
    intro timer member
    have early := steady.past _ timer ((steady.refines.fired _ timer).mp member)
    omega
  refine tmTrigger_steady invoke rearms ?_ (by decide) (by simp only [pow_zero, isUnit_one, IsUnit.dvd])
  refine {
    linked := steady.linked.congr rfl (fun _ => rfl) (fun _ _ => rfl) (fun _ _ => rfl)
    ticks := ?_
    rings := ?_
    once := steady.refines.once
    past := fun tick timer _ => steady.refines.fired tick timer
    early := steady.past
    due := fun timer member => absurd member (fresh timer)
    nodup := List.nodup_nil
    queued := fun timer member => absurd member List.not_mem_nil
    range := ?_
    waiting := fun timer pending _ => steady.waiting timer pending
    view := ?_ }
  · simp only [steady.refines.ticks, Nat.mod_add_mod]
  · intro ring inside
    rw [shown, if_neg (Nat.not_lt_zero ring)]
    exact steady.rings ring inside
  · intro timer pending
    have range := steady.range timer pending
    exact ⟨range.positive, range.small, range.created.trans (Nat.le_succ _), range.reach,
      range.bounded⟩
  · intro timer
    rw [if_neg (fresh timer)]
    exact steady.refines.view timer

end Trunk.Timer
