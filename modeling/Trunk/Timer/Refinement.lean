import Trunk.Foundation.Run
import Trunk.Timer.Tick

/-! # The timer wheel refines the naive scheduler

Every call of the timer API is simulated by the naive scheduler's step, so every
run of legal calls is (`Trunk.Timer.wheel_refines_naive`), provided the tick count and
the deadlines stay in the range of the 64-bit clock: a deadline past it wraps around,
and then a timer is filed as if it were overdue
(`Trunk.Timer.wheel_misses_wrapped_deadline`).
-/

namespace Trunk.Timer

open Run

variable {Timer Cb World : Type}

/-- Every repeating timer due at the next tick gets a deadline in the range of the
clock. -/
def State.Rearms (s : State Timer Cb World) : Prop :=
  ∀ timer, (s.node timer).pending = true → (s.node timer).cycle = true →
    (s.node timer).deadline = s.ticks + 1 → s.ticks + 1 + (s.node timer).expires < 2 ^ 64

variable [DecidableEq Timer] {n : Naive Timer} {s : State Timer Cb World} {timer : Timer}

/-- The clock does not wrap around in the call, and every deadline that the call sets,
or one of its ticks, is in the range of the clock. -/
def Op.InRange (invoke : Cb → Timer → World → Int × World) (s : State Timer Cb World) :
    Op Timer Cb → Prop
  | .insert _ after _ _ => s.ticks + after < 2 ^ 64
  | .remove _ => True
  | .change _ after => s.ticks + after < 2 ^ 64
  | .trigger times => s.ticks + times < 2 ^ 64 ∧
      ∀ before < times, ((fun s => (tick invoke s).2)^[before] s).Rearms

omit [DecidableEq Timer] in
theorem steady_init (world : World) :
    Steady (init world : State Timer Cb World) Naive.init where
  refines := ⟨rfl, fun _ => rfl, List.nodup_nil, by simp [init, Naive.init]⟩
  linked := linked_init world
  rings := by simp [init, Naive.init]
  range := by simp [init]
  waiting := by simp [init]
  past := by simp [Naive.init]

/-- A call that changes one timer's node and its place on the wheel arms the naive
scheduler with what the node then says. -/
theorem Steady.arm (steady : Steady s n) {s' : State Timer Cb World} {entry : Option Armed}
    (linked : Linked s') (ticks : s'.ticks = s.ticks) (current : s'.current = s.current)
    (log : s'.log = s.log) (others : ∀ other, other ≠ timer → s'.node other = s.node other)
    (view : (s'.node timer).view = entry)
    (range : (s'.node timer).pending = true → (s'.node timer).InRange n.now (n.now + 1))
    (waiting : (s'.node timer).pending = true → (s'.node timer).Waiting (n.now + 1) 0) :
    Steady s' (n.arm timer entry) := by
  refine {
    refines := ⟨ticks.trans steady.refines.ticks, ?_, ?_, ?_⟩
    linked := linked
    rings := by rw [current]; exact steady.rings
    range := ?_
    waiting := ?_
    past := steady.past }
  · intro other
    by_cases same : other = timer
    · subst other
      simp only [Naive.arm, Function.update_self, view]
    · simp only [Naive.arm, Function.update_of_ne same, others other same]
      exact steady.refines.view other
  · rw [log]
    exact steady.refines.once
  · rw [log]
    exact steady.refines.fired
  · intro other pending
    by_cases same : other = timer
    · subst other
      exact range pending
    · rw [others other same] at pending ⊢
      exact steady.range other pending
  · intro other pending
    by_cases same : other = timer
    · subst other
      exact waiting pending
    · rw [others other same] at pending ⊢
      exact steady.waiting other pending

/-- Filing an idle timer, in a clock that is otherwise steady, with a positive
32-bit delay. -/
theorem Steady.file (steady : Steady s n) (ticks : s.ticks = n.now)
    {s' : State Timer Cb World} (linked : Linked s') (sameTicks : s'.ticks = s.ticks)
    (current : s'.current = s.current) (log : s'.log = s.log)
    (others : ∀ other, other ≠ timer → s'.node other = s.node other)
    (idle : (s'.node timer).pending = false) (created : (s'.node timer).create ≤ n.now)
    (small : (s'.node timer).expires < 2 ^ 32) (ahead : n.now < (s'.node timer).deadline)
    (bounded : (s'.node timer).deadline < 2 ^ 64) :
    Steady (tmInsert s' timer) (n.arm timer
      (some ⟨(s'.node timer).create, (s'.node timer).expires, (s'.node timer).cycle⟩)) := by
  have left : tmLeft s' timer = (s'.node timer).deadline - n.now := by
    rw [← ticks, ← sameTicks]
    apply tmLeft_eq bounded
    rw [sameTicks, ticks]
    omega
  have deadline : (s'.node timer).deadline = (s'.node timer).create + (s'.node timer).expires :=
    rfl
  apply steady.arm
  · exact tmInsert_linked linked idle
  · exact sameTicks
  · exact current
  · exact log
  · intro other different
    rw [tmInsert_node_of_ne different, others other different]
  · rw [tmInsert_node_self]
    simp only [TmNode.view, ↓reduceIte]
  · intro _
    rw [tmInsert_node_self]
    refine ⟨?_, small, created, ahead, bounded⟩
    simp only
    omega
  · intro _
    apply tmInsert_waiting fun _ => n.now
    · rw [current]
      exact steady.rings
    · exact fun _ => le_rfl
    · exact fun ring below => absurd below (Nat.not_lt_zero ring)
    · omega
    · omega
    · intro ring
      omega

theorem osTmInsert_steady (steady : Steady s n) (ticks : s.ticks = n.now)
    {after : Nat} (cb : Cb) (cycle : Bool) (idle : (s.node timer).pending = false)
    (positive : 1 ≤ after) (small : after < 2 ^ 31) (fits : n.now + after < 2 ^ 64) :
    Steady (osTmInsert s (some timer) after (some cb) cycle).2
      (n.arm timer (some ⟨n.now, after, cycle⟩)) := by
  let armed : State Timer Cb World := { s with
    node := Function.update s.node timer { s.node timer with
      create := s.ticks
      expires := after
      pending := false
      cycle := cycle
      cb := some cb } }
  have other : ∀ other, other ≠ timer → armed.node other = s.node other :=
    fun other different => Function.update_of_ne different ..
  have self : armed.node timer = { s.node timer with
      create := n.now
      expires := after
      pending := false
      cycle := cycle
      cb := some cb } := by
    simp only [armed, Function.update_self, ticks]
  have linked : Linked armed := by
    have lists : armed.slotList = s.slotList := rfl
    apply steady.linked.congr lists
    all_goals
      intro node
      by_cases same : node = timer
      · subst node
        simp only [self, idle, Bool.false_eq_true, false_implies]
      · simp only [other node same, implies_true]
  have inserted : (osTmInsert s (some timer) after (some cb) cycle).2 =
      { tmInsert armed timer with inserted := s.inserted + 1 } := by
    have positiveInt : ¬ (after : Int) ≤ 0 := by omega
    have narrow : (after : Int).toNat % 2 ^ 32 = after := by
      rw [Int.toNat_natCast]
      exact Nat.mod_eq_of_lt (by omega)
    simp only [osTmInsert, Option.isNone_some, Bool.false_eq_true, ↓reduceIte, positiveInt, narrow]
    rfl
  have steadyArmed := steady.file ticks linked rfl rfl rfl other (by rw [self]) (by rw [self])
    (by rw [self]; simp only; omega)
    (by rw [self]; simp only [TmNode.deadline]; omega)
    (by rw [self]; exact fits)
  rw [self] at steadyArmed
  rw [inserted]
  exact ⟨⟨steadyArmed.refines.ticks, steadyArmed.refines.view, steadyArmed.refines.once,
    steadyArmed.refines.fired⟩, steadyArmed.linked.congr rfl (fun _ => rfl) (fun _ _ => rfl)
    (fun _ _ => rfl), steadyArmed.rings, steadyArmed.range, steadyArmed.waiting,
    steadyArmed.past⟩

theorem osTmRemove_steady (steady : Steady s n) :
    Steady (osTmRemove s (some timer)).2 (n.arm timer none) := by
  unfold osTmRemove
  dsimp only
  split
  · rename_i pending
    have lists : ∀ ring slot, timer ∉ (tmRemove s timer).slotList ring slot := by
      intro ring slot member
      have linked := ((tmRemove_linked steady.linked).mem ring slot timer).mp member
      rw [tmRemove_node_self] at linked
      exact Bool.false_ne_true linked.1
    apply steady.arm
    · refine ⟨fun ring slot other => ?_, (tmRemove_linked steady.linked).nodup⟩
      by_cases same : other = timer
      · subst other
        simp only [lists, Function.update_self, Bool.false_eq_true, false_and]
      · simp only [Function.update_of_ne same]
        exact (tmRemove_linked steady.linked).mem ring slot other
    · rfl
    · rfl
    · rfl
    · intro other different
      simp only [Function.update_of_ne different]
      exact tmRemove_node_of_ne different
    · simp only [Function.update_self, TmNode.view, Bool.false_eq_true, ↓reduceIte]
    · simp only [Function.update_self, Bool.false_eq_true, false_implies]
    · simp only [Function.update_self, Bool.false_eq_true, false_implies]
  · rename_i idle
    have entry : n.armed timer = none := by
      rw [← steady.refines.view timer]
      simp only [TmNode.view, idle, Bool.false_eq_true, ↓reduceIte]
    have same : n.arm timer none = n := by
      rw [← entry]
      simp only [Naive.arm, Function.update_eq_self]
    rw [same]
    exact steady

/-- With what is left of the old delay, `os_tm_change` makes the new one end `after`
ticks from now. -/
theorem changedExpires_eq {create expires now after : Nat} (created : create ≤ now)
    (pending : now < create + expires) (narrow : expires < 2 ^ 32)
    (small : now - create + after < 2 ^ 32) :
    changedExpires expires (create + expires - now) after = now - create + after := by
  unfold changedExpires
  simp only [Nat.reducePow] at *
  split <;> omega

theorem osTmChange_steady (steady : Steady s n) (ticks : s.ticks = n.now)
    {after : Nat} (pending : (s.node timer).pending = true) (positive : 1 ≤ after)
    (small : n.now - (s.node timer).create + after < 2 ^ 32) (fits : n.now + after < 2 ^ 64) :
    Steady (osTmChange s (some timer) after).2
      (n.arm timer ((n.armed timer).map fun armed =>
        { armed with expires := n.now - armed.create + after })) := by
  have range := steady.range timer pending
  have left : tmLeft s timer = (s.node timer).create + (s.node timer).expires - n.now := by
    rw [← ticks]
    apply tmLeft_eq range.bounded
    have created := range.created
    have narrow := range.small
    omega
  have expires : changedExpires (s.node timer).expires (tmLeft s timer) after =
      n.now - (s.node timer).create + after := by
    rw [left]
    exact changedExpires_eq range.created range.reach range.small small
  have entry : (n.armed timer).map (fun armed => { armed with
      expires := n.now - armed.create + after }) =
      some ⟨(s.node timer).create, n.now - (s.node timer).create + after,
        (s.node timer).cycle⟩ := by
    rw [← steady.refines.view timer, TmNode.view_of_pending pending]
    rfl
  let armed : State Timer Cb World := { tmRemove s timer with
    node := Function.update (tmRemove s timer).node timer { (tmRemove s timer).node timer with
      expires := changedExpires ((tmRemove s timer).node timer).expires (tmLeft s timer) after } }
  have self : armed.node timer = { s.node timer with
      pending := false
      expires := n.now - (s.node timer).create + after } := by
    simp only [armed, Function.update_self, tmRemove_node_self, expires]
  have other : ∀ other, other ≠ timer → armed.node other = (tmRemove s timer).node other :=
    fun other different => Function.update_of_ne different ..
  have linked : Linked armed := by
    have lists : armed.slotList = (tmRemove s timer).slotList := rfl
    apply (tmRemove_linked steady.linked).congr lists
    all_goals
      intro node
      by_cases same : node = timer
      · subst node
        simp only [self, tmRemove_node_self, implies_true]
      · simp only [other node same, implies_true]
  have changed : (osTmChange s (some timer) after).2 = tmInsert armed timer := by
    simp only [osTmChange, pending, ↓reduceIte]
    rfl
  have created := range.created
  rw [changed, entry]
  have steadyArmed := steady.file ticks linked rfl rfl rfl
    (fun node different => (other node different).trans (tmRemove_node_of_ne different))
    (by rw [self]) (by rw [self]; exact created) (by rw [self]; exact small)
    (by rw [self]; simp only [TmNode.deadline]; omega)
    (by rw [self]; simp only [TmNode.deadline]; omega)
  rw [self] at steadyArmed
  exact steadyArmed

/-- The loop of `os_tm_trigger` takes `times` ticks. -/
theorem osTmTriggerLoop_state (invoke : Cb → Timer → World → Int × World) (times : Nat)
    (ret count : Int) (s : State Timer Cb World) :
    (osTmTriggerLoop invoke times ret count s).2 = (fun s => (tick invoke s).2)^[times] s := by
  induction times generalizing ret count s with
  | zero => rfl
  | succ times ih =>
      unfold osTmTriggerLoop
      dsimp only
      split <;> rw [ih, Function.iterate_succ_apply]

omit [DecidableEq Timer] in
/-- What the naive scheduler arms again is what the wheel arms again. -/
theorem Steady.rearms (steady : Steady s n) (ticks : s.ticks = n.now) (rearms : s.Rearms) :
    n.Rearms := by
  intro timer armed entry cycle due
  have view := steady.refines.view timer
  rw [entry] at view
  unfold TmNode.view at view
  split at view
  · rename_i pending
    obtain rfl := Option.some.inj view
    have fits := rearms timer pending cycle
    rw [ticks] at fits
    exact fits due
  · cases view

omit [DecidableEq Timer] in
theorem Steady.ticks_eq (steady : Steady s n) (early : n.now < 2 ^ 64) : s.ticks = n.now := by
  rw [steady.refines.ticks]
  exact Nat.mod_eq_of_lt early

theorem iterate_tick_steady (invoke : Cb → Timer → World → Int × World) (times : Nat)
    (steady : Steady s n) (early : n.now + times < 2 ^ 64)
    (rearms : ∀ before < times, ((fun s => (tick invoke s).2)^[before] s).Rearms) :
    Steady ((fun s => (tick invoke s).2)^[times] s) (Naive.tick^[times] n) := by
  induction times generalizing s n with
  | zero => exact steady
  | succ times ih =>
      rw [Function.iterate_succ_apply, Function.iterate_succ_apply]
      have ticks := steady.ticks_eq (by omega)
      have next := tick_steady invoke steady (steady.rearms ticks (rearms 0 (Nat.succ_pos times)))
      refine ih next ?_ fun before within => ?_
      · change n.now + 1 + times < 2 ^ 64
        omega
      · rw [← Function.iterate_succ_apply (fun s => (tick invoke s).2)]
        exact rearms (before + 1) (Nat.succ_lt_succ within)

omit [DecidableEq Timer] in
theorem Naive.iterate_tick_now (times : Nat) (n : Naive Timer) :
    (Naive.tick^[times] n).now = n.now + times := by
  induction times generalizing n with
  | zero => rfl
  | succ times ih =>
      rw [Function.iterate_succ_apply, ih]
      simp only [Naive.tick]
      omega

/-- The wheel beside the naive scheduler, while the tick count is in range. -/
def Related (s : State Timer Cb World) (n : Naive Timer) : Prop :=
  Steady s n ∧ n.now < 2 ^ 64

/-- Every legal call in range is simulated by the naive scheduler. -/
theorem step_related (invoke : Cb → Timer → World → Int × World) (related : Related s n)
    (op : Op Timer Cb) (legal : op.Legal s) (inRange : op.InRange invoke s) :
    Related (step invoke s op) (n.step op) := by
  obtain ⟨steady, early⟩ := related
  have ticks := steady.ticks_eq early
  cases op with
  | insert timer after cb cycle =>
      obtain ⟨idle, positive, small⟩ := legal
      have fits : n.now + after < 2 ^ 64 := ticks ▸ inRange
      exact ⟨osTmInsert_steady steady ticks cb cycle idle positive small fits, early⟩
  | remove timer => exact ⟨osTmRemove_steady steady, early⟩
  | change timer after =>
      obtain ⟨pending, positive, _, small⟩ := legal
      rw [ticks] at small
      have fits : n.now + after < 2 ^ 64 := ticks ▸ inRange
      exact ⟨osTmChange_steady steady ticks pending positive small fits, early⟩
  | trigger times =>
      obtain ⟨within, rearms⟩ := inRange
      rw [ticks] at within
      refine ⟨?_, ?_⟩
      · change Steady (osTmTriggerLoop invoke times 0 0 s).2 _
        rw [osTmTriggerLoop_state]
        exact iterate_tick_steady invoke times steady within rearms
      · change (Naive.tick^[times] n).now < 2 ^ 64
        rw [Naive.iterate_tick_now]
        exact within

/-- The ticks a run may count for every 32-bit delay to end in the range of the clock. -/
def lastTick : Nat := 2 ^ 64 - 2 ^ 32

/-- The call does not take the tick count past `lastTick`. -/
def Op.Early (s : State Timer Cb World) : Op Timer Cb → Prop
  | .trigger times => s.ticks + times ≤ lastTick
  | _ => True

instance (s : State Timer Cb World) (op : Op Timer Cb) : Decidable (op.Early s) :=
  match op with
  | .insert .. => inferInstanceAs (Decidable True)
  | .remove .. => inferInstanceAs (Decidable True)
  | .change .. => inferInstanceAs (Decidable True)
  | .trigger .. => inferInstanceAs (Decidable (_ ≤ _))

omit [DecidableEq Timer] in
/-- A pending timer's delay has 32 bits, so before `lastTick` it can be armed again. -/
theorem Steady.rearms_of_early (steady : Steady s n) (early : n.now + 1 ≤ lastTick) :
    s.Rearms := by
  intro timer pending _ _
  simp only [lastTick] at early
  have ticks := steady.ticks_eq (by omega)
  have small := (steady.range timer pending).small
  omega

theorem rearms_iterate (invoke : Cb → Timer → World → Int × World) (steady : Steady s n)
    {times : Nat} (early : n.now + times ≤ lastTick) :
    ∀ before < times, ((fun s => (tick invoke s).2)^[before] s).Rearms := by
  induction times generalizing s n with
  | zero => exact fun before none => absurd none (Nat.not_lt_zero before)
  | succ times ih =>
      have first := steady.rearms_of_early (by omega)
      have ticks := steady.ticks_eq (by simp only [lastTick] at early; omega)
      have next := tick_steady invoke steady (steady.rearms ticks first)
      have later : n.tick.now + times ≤ lastTick := by
        change n.now + 1 + times ≤ lastTick
        omega
      intro before within
      cases before with
      | zero => exact first
      | succ before =>
          rw [Function.iterate_succ_apply]
          exact ih next later before (Nat.lt_of_succ_lt_succ within)

/-- A run of legal calls is in range as long as it does not count past `lastTick`. -/
theorem guarded_inRange (invoke : Cb → Timer → World → Int × World) (ops : List (Op Timer Cb))
    (steady : Steady s n) (start : n.now ≤ lastTick)
    (allowed : Guarded (step invoke) (fun s op => op.Legal s ∧ op.Early s) s ops) :
    Guarded (step invoke) (fun s op => op.Legal s ∧ op.InRange invoke s) s ops := by
  induction ops generalizing s n with
  | nil => trivial
  | cons op ops ih =>
      obtain ⟨⟨legal, early⟩, rest⟩ := allowed
      have bound : n.now < 2 ^ 64 := by
        simp only [lastTick] at start
        omega
      have ticks := steady.ticks_eq bound
      have inRange : op.InRange invoke s := by
        cases op with
        | insert timer after cb cycle =>
            simp only [lastTick, Op.Legal, Op.InRange] at start legal ⊢
            omega
        | remove timer => trivial
        | change timer after =>
            simp only [lastTick, Op.Legal, Op.InRange] at start legal ⊢
            omega
        | trigger times =>
            simp only [Op.Early, ticks] at early
            refine ⟨?_, rearms_iterate invoke steady early⟩
            simp only [lastTick] at early
            omega
      have counted : (n.step op).now ≤ lastTick := by
        cases op with
        | insert timer after cb cycle => exact start
        | remove timer => exact start
        | change timer after => exact start
        | trigger times =>
            change (Naive.tick^[times] n).now ≤ lastTick
            rw [Naive.iterate_tick_now, ← ticks]
            exact early
      have next := step_related invoke ⟨steady, bound⟩ op legal inRange
      exact ⟨⟨legal, inRange⟩, ih next.1 counted rest⟩

/-- After every run of legal calls that keeps the ticks and the deadlines in the range
of the clock, the wheel holds the timers the naive scheduler holds, and every callback
has run exactly at the ticks at which the naive scheduler runs it, once. -/
theorem wheel_refines_naive (invoke : Cb → Timer → World → Int × World) (world : World)
    (ops : List (Op Timer Cb))
    (allowed : Guarded (step invoke) (fun s op => op.Legal s ∧ op.InRange invoke s) (init world)
      ops) :
    Refines (run (step invoke) (init world) ops) (run Naive.step Naive.init ops) := by
  have start : Related (init world : State Timer Cb World) Naive.init :=
    ⟨steady_init world, Nat.two_pow_pos 64⟩
  have keeps : ∀ (s : State Timer Cb World) (n : Naive Timer) op, Related s n →
      op.Legal s ∧ op.InRange invoke s → Related (step invoke s op) (n.step op) :=
    fun s n op related guard => step_related invoke related op guard.1 guard.2
  exact (guarded_simulation keeps ops (init world) Naive.init start allowed).1.refines

/-- A repeating timer armed, changed and taken through a hundred ticks. -/
theorem wheel_refines_naive_cycle :
    Refines
      (run (step fun (_ : Unit) (_ : Bool) (calls : Nat) => (0, calls + 1)) (init 0)
        [.insert true 3 () true, .insert false 5 () false, .change true 7, .remove false,
          .trigger 100])
      (run Naive.step Naive.init
        [.insert true 3 () true, .insert false 5 () false, .change true 7, .remove false,
          .trigger 100]) := by
  apply wheel_refines_naive
  apply guarded_inRange _ _ (steady_init 0) (Nat.zero_le _)
  refine ⟨?_, ?_, ?_, ?_, ?_, trivial⟩ <;> decide

/-- Nothing is armed and nothing has run. -/
structure Naive.Idle (n : Naive Timer) : Prop where
  armed : ∀ timer, n.armed timer = none
  fired : ∀ tick, n.fired tick = ∅

omit [DecidableEq Timer] in
theorem Naive.Idle.tick (idle : n.Idle) : n.tick.Idle where
  armed := by
    intro timer
    simp only [Naive.tick, idle.armed, Option.bind_none]
  fired := by
    intro tick
    have noneDue : n.due = ∅ := by
      simp only [Naive.due, idle.armed, reduceCtorEq, false_and, exists_false, Set.ofPred_false]
    by_cases same : tick = n.now + 1
    · subst tick
      simp only [Naive.tick, Function.update_self, noneDue]
    · simp only [Naive.tick, Function.update_of_ne same, idle.fired]

/-- An idle wheel ticks like the naive scheduler however long it runs. -/
theorem iterate_tick_idle (invoke : Cb → Timer → World → Int × World) (times : Nat)
    (steady : Steady s n) (idle : n.Idle) :
    Steady ((fun s => (tick invoke s).2)^[times] s) (Naive.tick^[times] n) ∧
      (Naive.tick^[times] n).Idle := by
  induction times generalizing s n with
  | zero => exact ⟨steady, idle⟩
  | succ times ih =>
      have rearms : n.Rearms := by
        intro timer armed entry
        rw [idle.armed] at entry
        cases entry
      rw [Function.iterate_succ_apply, Function.iterate_succ_apply]
      exact ih (tick_steady invoke steady rearms) idle.tick

/-- An idle wheel driven by any number of equal calls of `os_tm_trigger`. -/
theorem replicate_trigger_idle (invoke : Cb → Timer → World → Int × World) (times rounds : Nat)
    (steady : Steady s n) (idle : n.Idle) :
    Steady (run (step invoke) s (List.replicate rounds (.trigger times)))
        (Naive.tick^[rounds * times] n) ∧
      (Naive.tick^[rounds * times] n).Idle ∧
      run Naive.step n (List.replicate rounds (.trigger times : Op Timer Cb)) =
        Naive.tick^[rounds * times] n := by
  induction rounds generalizing s n with
  | zero =>
      rw [Nat.zero_mul]
      exact ⟨steady, idle, rfl⟩
  | succ rounds ih =>
      obtain ⟨nextSteady, nextIdle⟩ := iterate_tick_idle invoke times steady idle
      rw [← osTmTriggerLoop_state invoke times 0 0] at nextSteady
      rw [Nat.succ_mul, Function.iterate_add_apply]
      exact ih nextSteady nextIdle

theorem replicate_trigger_legal (invoke : Cb → Timer → World → Int × World) {times : Nat}
    (small : times < 2 ^ 32) (rounds : Nat) (s : State Timer Cb World) :
    Guarded (step invoke) (fun s op => op.Legal s) s
      (List.replicate rounds (.trigger times)) := by
  induction rounds generalizing s with
  | zero => trivial
  | succ rounds ih => exact ⟨small, ih _⟩

/-- A carry that only meets empty slots runs nothing. -/
theorem tmTrigger_log_of_empty (invoke : Cb → Timer → World → Int × World) {ring : Nat}
    (empty : ∀ above, ring ≤ above →
      s.slotList above ((s.current above + 1) &&& tmMask) = []) :
    (tmTrigger invoke s ring).2.log = s.log := by
  induction s, ring using tmTrigger.induct invoke with
  | case1 s ring advanced here carry ih =>
      have visited : here = (0, advanced) := by
        simp only [here, advanced, tmRingTrigger, Function.update_self, empty ring le_rfl,
          List.foldl_nil]
      rw [tmTrigger, if_pos carry]
      refine (ih ?_).trans (by rw [visited])
      intro above higher
      have different : above ≠ ring := by omega
      simp only [visited, advanced, Function.update_of_ne different]
      exact empty above (by omega)
  | case2 s ring advanced here stop =>
      have visited : here = (0, advanced) := by
        simp only [here, advanced, tmRingTrigger, Function.update_self, empty ring le_rfl,
          List.foldl_nil]
      rw [tmTrigger, if_neg stop]
      change here.2.log = s.log
      rw [visited]

omit [DecidableEq Timer] in
theorem Steady.idle_node (steady : Steady s n) (idle : n.Idle) (timer : Timer) :
    (s.node timer).pending = false := by
  rw [← Bool.not_eq_true]
  intro pending
  have view := steady.refines.view timer
  rw [idle.armed, TmNode.view_of_pending pending] at view
  cases view

omit [DecidableEq Timer] in
theorem Steady.slotList_of_idle (steady : Steady s n) (idle : n.Idle) (ring slot : Nat) :
    s.slotList ring slot = [] := by
  rw [List.eq_nil_iff_forall_not_mem]
  intro timer member
  have pending := ((steady.linked.mem ring slot timer).mp member).1
  rw [steady.idle_node idle timer] at pending
  exact Bool.false_ne_true pending

/-- At the last tick of the 64-bit clock a deadline one tick ahead wraps around: the
timer looks overdue, is filed in the slot that was just run, and the next tick does
not run it. -/
theorem wrapped_insert_not_run (invoke : Cb → Timer → World → Int × World)
    (steady : Steady s n) (idle : n.Idle) (last : n.now = 2 ^ 64 - 1) (timer : Timer) (cb : Cb) :
    (run (step invoke) s [.insert timer 1 cb false, .trigger 1]).log = [] := by
  have empty := steady.slotList_of_idle idle
  have log : s.log = [] := by
    rw [List.eq_nil_iff_forall_not_mem]
    rintro ⟨tick, other⟩ member
    have fired := (steady.refines.fired tick other).mp member
    rw [idle.fired] at fired
    exact fired
  have ticks : s.ticks = 2 ^ 64 - 1 := by
    rw [steady.refines.ticks, last]
    rfl
  have current : s.current 0 = 255 := by
    rw [steady.rings 0 (by decide), last]
    rfl
  let armed : State Timer Cb World := { s with
    node := Function.update s.node timer { s.node timer with
      create := s.ticks
      expires := 1
      pending := false
      cycle := false
      cb := some cb } }
  have place : tmFindRing armed timer = (0, 255) := by
    have overdue : tmLeft armed timer = 0 := by
      simp only [tmLeft, armed, Function.update_self, ticks]
      rfl
    have slot : tmFindRing armed timer = (0, (s.current 0 + 0) &&& tmMask) := by
      simp only [tmFindRing, overdue]
      rfl
    rw [slot, current]
    rfl
  change (osTmTriggerLoop invoke 1 0 0 (osTmInsert s (some timer) 1 (some cb) false).2).2.log = []
  rw [osTmTriggerLoop_state, ← log]
  refine tmTrigger_log_of_empty invoke fun above _ => ?_
  change setAt s.slotList (tmFindRing armed timer).1 (tmFindRing armed timer).2 _ above
    ((s.current above + 1) &&& tmMask) = []
  rw [place, setAt_apply, if_neg]
  · exact empty ..
  · rintro ⟨bottom, slot⟩
    rw [bottom, current] at slot
    exact absurd slot (by decide)

theorem wrapped_insert_not_refines (invoke : Cb → Timer → World → Int × World)
    (steady : Steady s n) (idle : n.Idle) (last : n.now = 2 ^ 64 - 1) (timer : Timer) (cb : Cb) :
    ¬ Refines (run (step invoke) s [.insert timer 1 cb false, .trigger 1])
      (run Naive.step n [.insert timer 1 cb false, .trigger 1]) := by
  intro refines
  have fired : timer ∈ (n.arm timer (some ⟨n.now, 1, false⟩)).tick.fired (n.now + 1) := by
    simp only [Naive.tick, Naive.due, Naive.arm, Function.update_self]
    exact ⟨_, Function.update_self .., rfl⟩
  have ran := (refines.fired (n.now + 1) timer).mpr fired
  rw [wrapped_insert_not_run invoke steady idle last timer cb] at ran
  exact absurd ran List.not_mem_nil

/-- Without a bound on the ticks the refinement fails: 2^32 + 1 calls of
`os_tm_trigger(2^32 - 1)` bring the clock to its last tick, and a timer inserted
there with a delay of one tick is not run at the next. -/
theorem wheel_misses_wrapped_deadline :
    ¬ ∀ ops : List (Op Unit Unit),
      Guarded (step fun (_ _ : Unit) (_ : Unit) => (0, ())) (fun s op => op.Legal s)
        (init ()) ops →
      Refines (run (step fun (_ _ : Unit) (_ : Unit) => (0, ())) (init ()) ops)
        (run Naive.step Naive.init ops) := by
  intro refinement
  have idle : (Naive.init : Naive Unit).Idle := ⟨fun _ => rfl, fun _ => rfl⟩
  obtain ⟨steady, stillIdle, naive⟩ := replicate_trigger_idle
    (fun (_ _ : Unit) (_ : Unit) => (0, ())) (2 ^ 32 - 1) (2 ^ 32 + 1) (steady_init ()) idle
  have last : (Naive.tick^[(2 ^ 32 + 1) * (2 ^ 32 - 1)] (Naive.init : Naive Unit)).now =
      2 ^ 64 - 1 := by
    rw [Naive.iterate_tick_now]
    rfl
  have broken := refinement (List.replicate (2 ^ 32 + 1) (.trigger (2 ^ 32 - 1)) ++
    [.insert () 1 () false, .trigger 1])
  rw [guarded_append, run_append, run_append, naive] at broken
  refine wrapped_insert_not_refines _ steady stillIdle last () () (broken ⟨?_, ?_⟩)
  · exact replicate_trigger_legal _ (by decide) _ _
  · exact ⟨⟨steady.idle_node stillIdle (), by decide, by decide⟩, Nat.one_lt_two_pow (by decide),
      trivial⟩

end Trunk.Timer
