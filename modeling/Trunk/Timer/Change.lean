import Trunk.Timer.Refinement

/-! # Changing a delay

A timer that `os_tm_change` gives a new delay runs that many ticks later, and not before, as long
as no other call names it (`Trunk.Timer.change_fires`). The delay has to be positive, and together
with the age of the timer it has to fit the 32 bits of `expires`. A timer that is given no delay is
filed in the slot that was run last (`Trunk.Timer.change_zero_late`).
-/

namespace Trunk.Timer

open Run

variable {Timer Cb World : Type}

/-- The timer that a call is about. -/
def Op.Names (timer : Timer) : Op Timer Cb → Prop
  | .insert other _ _ _ => other = timer
  | .remove other => other = timer
  | .change other _ => other = timer
  | .trigger _ => False

/-- A timer that was armed at one tick for another: it is armed until then, does not run in
between, and has run then. -/
structure Naive.Awaits (n : Naive Timer) (timer : Timer) (start deadline : Nat) : Prop where
  armed : n.now < deadline → ∃ armed, n.armed timer = some armed ∧ armed.deadline = deadline
  quiet : ∀ tick, start < tick → tick < deadline → timer ∉ n.fired tick
  ahead : ∀ tick, n.now < tick → timer ∉ n.fired tick
  ran : deadline ≤ n.now → timer ∈ n.fired deadline

variable {n : Naive Timer} {timer : Timer} {start deadline : Nat}

theorem Naive.Awaits.not_due (awaits : n.Awaits timer start deadline)
    (later : n.now + 1 < deadline) : timer ∉ n.due := by
  rintro ⟨armed, entry, due⟩
  obtain ⟨armed', entry', set⟩ := awaits.armed (Nat.lt_of_succ_lt later)
  obtain rfl := Option.some.inj (entry.symm.trans entry')
  exact Nat.ne_of_lt later (due.symm.trans set)

theorem Naive.Awaits.tick (awaits : n.Awaits timer start deadline) :
    n.tick.Awaits timer start deadline where
  armed := by
    intro later
    change n.now + 1 < deadline at later
    obtain ⟨armed, entry, set⟩ := awaits.armed (Nat.lt_of_succ_lt later)
    refine ⟨armed, ?_, set⟩
    have stays : armed.expire (n.now + 1) = some armed := by
      apply if_neg
      rw [set]
      exact Nat.ne_of_gt later
    simp only [Naive.tick, entry, Option.bind_some, stays]
  quiet := by
    intro other begun early
    by_cases same : other = n.now + 1
    · subst other
      simp only [Naive.tick, Function.update_self]
      exact awaits.not_due early
    · simp only [Naive.tick, Function.update_of_ne same]
      exact awaits.quiet other begun early
  ahead := by
    intro other later
    change n.now + 1 < other at later
    simp only [Naive.tick, Function.update_of_ne (Nat.ne_of_gt later)]
    exact awaits.ahead other (Nat.lt_of_succ_lt later)
  ran := by
    intro reached
    change deadline ≤ n.now + 1 at reached
    by_cases same : deadline = n.now + 1
    · obtain ⟨armed, entry, set⟩ := awaits.armed (by omega)
      rw [same]
      simp only [Naive.tick, Function.update_self]
      exact ⟨armed, entry, set.trans same⟩
    · simp only [Naive.tick, Function.update_of_ne same]
      exact awaits.ran (by omega)

theorem Naive.Awaits.iterate (awaits : n.Awaits timer start deadline) (times : Nat) :
    (Naive.tick^[times] n).Awaits timer start deadline := by
  induction times generalizing n with
  | zero => exact awaits
  | succ times ih =>
      rw [Function.iterate_succ_apply]
      exact ih awaits.tick

variable [DecidableEq Timer] {s : State Timer Cb World}

theorem Naive.Awaits.arm (awaits : n.Awaits timer start deadline) {other : Timer}
    (different : other ≠ timer) (entry : Option Armed) :
    (n.arm other entry).Awaits timer start deadline where
  armed := by
    intro later
    obtain ⟨armed, before, set⟩ := awaits.armed later
    refine ⟨armed, ?_, set⟩
    simp only [Naive.arm, Function.update_of_ne different.symm, before]
  quiet := awaits.quiet
  ahead := awaits.ahead
  ran := awaits.ran

theorem Naive.Awaits.step (awaits : n.Awaits timer start deadline) (op : Op Timer Cb)
    (spared : ¬ op.Names timer) : (n.step op).Awaits timer start deadline := by
  cases op with
  | insert other after cb cycle => exact awaits.arm spared _
  | remove other => exact awaits.arm spared _
  | change other after => exact awaits.arm spared _
  | trigger times => exact awaits.iterate times

/-- A timer awaits its deadline in every run that does not name it. -/
theorem Naive.Awaits.run (awaits : n.Awaits timer start deadline) (ops : List (Op Timer Cb))
    (spared : ∀ op ∈ ops, ¬ op.Names timer) :
    (run Naive.step n ops).Awaits timer start deadline := by
  have keeps : ∀ (n : Naive Timer) (op : Op Timer Cb), n.Awaits timer start deadline →
      ¬ op.Names timer → (n.step op).Awaits timer start deadline :=
    fun _ op awaits spared => awaits.step op spared
  exact run_invariant_of_mem keeps ops n awaits spared

/-- A timer is armed with a delay from now on. -/
theorem Naive.awaits_arm (past : ∀ tick timer, timer ∈ n.fired tick → tick ≤ n.now)
    {armed : Armed} (set : armed.deadline = deadline) (later : n.now < deadline) :
    (n.arm timer (some armed)).Awaits timer n.now deadline where
  armed := fun _ => ⟨armed, Function.update_self .., set⟩
  quiet := fun tick begun _ ran => Nat.not_le_of_lt begun (past tick timer ran)
  ahead := fun tick begun ran => Nat.not_le_of_lt begun (past tick timer ran)
  ran := fun reached => absurd reached (Nat.not_le_of_lt later)

/-- The tick at which a timer has to run that is given a delay now. -/
def dueAt (s : State Timer Cb World) (after : Nat) : Nat := s.ticks + max after 1

/-- The calls that a caller may make, in the range of the clock. -/
def Allowed (invoke : Cb → Timer → World → Int × World) (s : State Timer Cb World)
    (ops : List (Op Timer Cb)) : Prop :=
  Guarded (step invoke) (fun s op => op.Legal s ∧ op.InRange invoke s) s ops

/-- A call of `os_tm_change` succeeds, and in whatever run follows that does not name the timer, it
runs when it is due, and not between now and then. -/
def Rearmed (invoke : Cb → Timer → World → Int × World) (s : State Timer Cb World) (timer : Timer)
    (after : Nat) : Prop :=
  (osTmChange s (some timer) after).1 = .code 0 ∧
    ∀ ops, Allowed invoke (osTmChange s (some timer) after).2 ops →
      (∀ op ∈ ops, ¬ op.Names timer) →
      (dueAt s after ≤ (run (step invoke) (osTmChange s (some timer) after).2 ops).ticks →
        (dueAt s after, timer) ∈
          (run (step invoke) (osTmChange s (some timer) after).2 ops).log) ∧
      ∀ tick, s.ticks < tick → tick < dueAt s after →
        (tick, timer) ∉ (run (step invoke) (osTmChange s (some timer) after).2 ops).log

theorem related_run (invoke : Cb → Timer → World → Int × World) (ops : List (Op Timer Cb))
    (related : Related s n) (allowed : Allowed invoke s ops) :
    Related (run (step invoke) s ops) (run Naive.step n ops) := by
  have keeps : ∀ (s : State Timer Cb World) (n : Naive Timer) op, Related s n →
      op.Legal s ∧ op.InRange invoke s → Related (step invoke s op) (n.step op) :=
    fun s n op related guard => step_related invoke related op guard.1 guard.2
  exact guarded_simulation keeps ops s n related allowed

theorem Related.rearmed (invoke : Cb → Timer → World → Int × World) (related : Related s n)
    {after : Nat} (legal : (Op.change timer after : Op Timer Cb).Legal s)
    (inRange : (Op.change timer after : Op Timer Cb).InRange invoke s) :
    Rearmed invoke s timer after := by
  have pending : (s.node timer).pending = true := legal.1
  have positive : 1 ≤ after := legal.2.1
  have ticks := related.1.ticks_eq related.2
  have created := (related.1.range timer pending).created
  have entry := related.1.refines.view timer
  rw [TmNode.view_of_pending pending] at entry
  have next := step_related invoke related _ legal inRange
  have due : dueAt s after = n.now + after := by
    rw [dueAt, ticks, Nat.max_eq_left positive]
  have awaits : (n.step (Op.change timer after : Op Timer Cb)).Awaits timer n.now
      (n.now + after) := by
    simp only [Naive.step, ← entry, Option.map_some]
    apply Naive.awaits_arm related.1.past
    · change (s.node timer).create + (n.now - (s.node timer).create + after) = _
      omega
    · omega
  refine ⟨?_, fun ops allowed spared => ?_⟩
  · simp only [osTmChange, pending, ↓reduceIte]
  · have after' := awaits.run ops spared
    have final := related_run invoke ops next allowed
    have fired := final.1.refines.fired
    rw [due]
    refine ⟨fun reached => ?_, fun tick begun early ran => ?_⟩
    · apply (fired _ _).mpr
      apply after'.ran
      rw [← final.1.ticks_eq final.2]
      exact reached
    · rw [ticks] at begun
      exact after'.quiet tick begun early ((fired tick timer).mp ran)

/-- In every state that a run reaches, a pending timer that is given a positive delay runs when it
is due, if its age and the delay fit `expires` and the clock. -/
theorem change_fires (invoke : Cb → Timer → World → Int × World) (world : World)
    (ops : List (Op Timer Cb)) (allowed : Allowed invoke (init world) ops) (timer : Timer)
    (after : Nat) (positive : 1 ≤ after)
    (pending : ((run (step invoke) (init world) ops).node timer).pending = true)
    (fits : (run (step invoke) (init world) ops).ticks -
      ((run (step invoke) (init world) ops).node timer).create + after < 2 ^ 32)
    (inRange : (run (step invoke) (init world) ops).ticks + after < 2 ^ 64) :
    Rearmed invoke (run (step invoke) (init world) ops) timer after := by
  have start : Related (init world : State Timer Cb World) Naive.init :=
    ⟨steady_init world, Nat.two_pow_pos 64⟩
  have related := related_run invoke ops start allowed
  exact related.rearmed invoke ⟨pending, positive, by omega, fits⟩ inRange

/-- A callback that does nothing. -/
def nothing (_ _ _ : Unit) : Int × Unit := (0, ())

/-- A timer waits for five ticks. -/
def fiveTicks : List (Op Unit Unit) := [.insert () 5 () false]

theorem allowed_fiveTicks : Allowed nothing (init ()) fiveTicks := by
  apply guarded_inRange _ _ (steady_init ()) (Nat.zero_le _)
  refine ⟨?_, trivial⟩
  decide

/-- A timer that waits for five ticks is told to wait for three hundred. -/
theorem change_fires_later : Rearmed nothing (run (step nothing) (init ()) fiveTicks) () 300 :=
  change_fires nothing () fiveTicks allowed_fiveTicks () 300 (by decide) (by decide) (by decide)
    (by decide)

/-- A timer that is told to wait for no tick does not run at the next one. -/
theorem change_zero_late :
    ¬ ∀ ops, Allowed nothing (init ()) ops → ∀ timer after, after < 2 ^ 32 →
      ((run (step nothing) (init ()) ops).node timer).pending = true →
      Rearmed nothing (run (step nothing) (init ()) ops) timer after := by
  intro rearmed
  obtain ⟨-, runs⟩ := rearmed fiveTicks allowed_fiveTicks () 0 (by decide) (by decide)
  have rearms : (osTmChange (run (step nothing) (init ()) fiveTicks) (some ()) 0).2.Rearms := by
    rintro ⟨⟩ - cycle
    exact absurd cycle (by decide)
  have next := (runs [.trigger 1] ⟨⟨by decide, by decide, ?_⟩, trivial⟩ ?_).1
  · -- the slot of the next tick is empty: the timer is in the one before it
    have ran : (tick nothing
        (osTmChange (run (step nothing) (init ()) fiveTicks) (some ()) 0).2).2.ticks = 1 ∧
        (tick nothing
          (osTmChange (run (step nothing) (init ()) fiveTicks) (some ()) 0).2).2.log = [] := by
      rw [tick, tmTrigger]
      decide
    have ticked : run (step nothing)
        (osTmChange (run (step nothing) (init ()) fiveTicks) (some ()) 0).2 [.trigger 1] =
        (tick nothing (osTmChange (run (step nothing) (init ()) fiveTicks) (some ()) 0).2).2 :=
      osTmTriggerLoop_state nothing 1 0 0 _
    have due : dueAt (run (step nothing) (init ()) fiveTicks) 0 = 1 := by decide
    rw [ticked, ran.1, ran.2, due] at next
    cases next (Nat.le_refl 1)
  · intro before less
    obtain rfl : before = 0 := Nat.lt_one_iff.mp less
    exact rearms
  · intro op member
    rw [List.mem_singleton.mp member]
    exact id

end Trunk.Timer
