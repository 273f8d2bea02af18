import Trunk.Timer.Placement

/-! # One tick of the wheel

A tick advances ring 0 and carries into the higher rings. `Trunk.Timer.Sweep` is
what holds while it does: rings below `stage` have been run at the new tick and
show it, rings from `stage` on still show the old one, and `rest` is what is left
to visit of the slot being run. Every pending timer still has a visit no later
than its deadline; a visit at the new tick itself is one by a ring that has not
been run yet. This last clause is what a re-filing during the carry establishes:
the slot it computes from a ring that shows the old tick may be run in the same
tick, never later than the deadline.
-/

namespace Trunk.Timer

variable {Timer Cb World : Type}

/-- The tick a node is due at. -/
def TmNode.deadline (node : TmNode Cb) : Nat := node.create + node.expires

/-- The node's slot is run by its ring at some tick no later than its deadline:
after `now`, or at `now` by a ring from `stage` on. -/
structure TmNode.Waiting (node : TmNode Cb) (now stage : Nat) : Prop where
  ring : node.ringIdx < tmRing
  visit : ∃ visit, now ≤ visit ∧ visit ≤ node.deadline ∧
    Radix.Shows 256 node.ringIdx node.ringSlot visit ∧ (visit = now → stage ≤ node.ringIdx)

/-- A node armed no later than `latest`, due no earlier than `earliest`, with a
positive 32-bit delay and a 64-bit deadline. -/
structure TmNode.InRange (node : TmNode Cb) (latest earliest : Nat) : Prop where
  positive : 0 < node.expires
  small : node.expires < 2 ^ 32
  created : node.create ≤ latest
  reach : earliest ≤ node.deadline
  bounded : node.deadline < 2 ^ 64

/-- The tick a ring shows while rings below `stage` have been advanced to
`now + 1`. -/
def shown (now stage ring : Nat) : Nat := if ring < stage then now + 1 else now

/-- The wheel between two calls, beside the naive scheduler. -/
structure Steady (s : State Timer Cb World) (n : Naive Timer) : Prop where
  refines : Refines s n
  linked : Linked s
  rings : ∀ ring < tmRing, s.current ring = n.now / 256 ^ ring % 256
  range : ∀ timer, (s.node timer).pending = true →
    (s.node timer).InRange n.now (n.now + 1)
  waiting : ∀ timer, (s.node timer).pending = true →
    (s.node timer).Waiting (n.now + 1) 0
  past : ∀ tick timer, timer ∈ n.fired tick → tick ≤ n.now

variable [DecidableEq Timer]

/-- The wheel inside the tick `n.now + 1`, with the rings below `stage` run and
`rest` of the current slot still to visit. A timer that already ran in this tick is
armed as after it, any other as before. -/
structure Sweep (n : Naive Timer) (stage : Nat) (rest : List Timer)
    (s : State Timer Cb World) : Prop where
  linked : Linked s
  ticks : s.ticks = (n.now + 1) % 2 ^ 64
  rings : ∀ ring < tmRing, s.current ring = shown n.now stage ring / 256 ^ ring % 256
  once : s.log.Nodup
  past : ∀ tick timer, tick ≠ n.now + 1 → ((tick, timer) ∈ s.log ↔ timer ∈ n.fired tick)
  early : ∀ tick timer, timer ∈ n.fired tick → tick ≤ n.now
  due : ∀ timer, (n.now + 1, timer) ∈ s.log → timer ∈ n.due
  nodup : rest.Nodup
  queued : ∀ timer ∈ rest, (s.node timer).pending = true
  range : ∀ timer, (s.node timer).pending = true →
    (s.node timer).InRange (n.now + 1) (n.now + 1)
  waiting : ∀ timer, (s.node timer).pending = true → timer ∉ rest →
    (s.node timer).Waiting (n.now + 1) stage
  view : ∀ timer, (s.node timer).view =
    if (n.now + 1, timer) ∈ s.log then n.tick.armed timer else n.armed timer

variable {n : Naive Timer} {stage : Nat} {rest : List Timer} {s : State Timer Cb World}
  {timer : Timer}

omit [DecidableEq Timer] in
theorem TmNode.view_of_pending {node : TmNode Cb} (pending : node.pending = true) :
    node.view = some ⟨node.create, node.expires, node.cycle⟩ := by
  simp only [TmNode.view, pending, ↓reduceIte]

/-- Filing a timer whose delay keeps every ring inside the deadline leaves it
waiting. -/
theorem tmInsert_waiting {now : Nat} (clock : Nat → Nat)
    (rings : ∀ ring < tmRing, s.current ring = clock ring / 256 ^ ring % 256)
    (fromNow : ∀ ring, now ≤ clock ring)
    (advanced : ∀ ring < stage, now + 1 ≤ clock ring)
    (positive : 0 < tmLeft s timer) (small : tmLeft s timer < 2 ^ 32)
    (inTime : ∀ ring, clock ring + tmLeft s timer ≤ (s.node timer).deadline) :
    ((tmInsert s timer).node timer).Waiting (now + 1) stage := by
  obtain ⟨inside, visit, after, before, shown⟩ := tmFindRing_shows clock rings positive small
  rw [tmInsert_node_self]
  refine ⟨inside, visit, ?_, before.trans (inTime _), shown, ?_⟩
  · exact (fromNow _).trans_lt after
  · intro same
    by_contra early
    have reached : now + 1 ≤ clock (tmFindRing s timer).1 := advanced _ (not_le.mp early)
    omega

/-- One visit of the slot's list: the state may change at the visited timer only,
which is accounted for separately. -/
theorem Sweep.visited (sweep : Sweep n stage (timer :: rest) s) {s' : State Timer Cb World}
    (linked : Linked s') (ticks : s'.ticks = s.ticks) (current : s'.current = s.current)
    (others : ∀ other, other ≠ timer → s'.node other = s.node other)
    (log : s'.log = s.log ∨
      s'.log = (n.now + 1, timer) :: s.log ∧ (n.now + 1, timer) ∉ s.log ∧ timer ∈ n.due)
    (range : (s'.node timer).pending = true →
      (s'.node timer).InRange (n.now + 1) (n.now + 1))
    (waiting : (s'.node timer).pending = true → (s'.node timer).Waiting (n.now + 1) stage)
    (view : (s'.node timer).view =
      if (n.now + 1, timer) ∈ s'.log then n.tick.armed timer else n.armed timer) :
    Sweep n stage rest s' := by
  have fresh := List.nodup_cons.mp sweep.nodup
  have logOther : ∀ tick other, (tick, other) ≠ (n.now + 1, timer) →
      ((tick, other) ∈ s'.log ↔ (tick, other) ∈ s.log) := by
    intro tick other different
    rcases log with same | ⟨same, _⟩
    · rw [same]
    · rw [same, List.mem_cons]
      exact or_iff_right different
  have notSelf : ∀ other tick, other ≠ timer → (tick, other) ≠ (n.now + 1, timer) :=
    fun other tick different same => different (Prod.ext_iff.mp same).2
  refine {
    linked := linked
    ticks := ticks.trans sweep.ticks
    rings := by rw [current]; exact sweep.rings
    once := ?_
    past := ?_
    early := sweep.early
    due := ?_
    nodup := fresh.2
    queued := ?_
    range := ?_
    waiting := ?_
    view := ?_ }
  · rcases log with same | ⟨same, absent, _⟩
    · rw [same]
      exact sweep.once
    · rw [same]
      exact List.nodup_cons.mpr ⟨absent, sweep.once⟩
  · intro tick other different
    rw [logOther tick other fun same => different (Prod.ext_iff.mp same).1]
    exact sweep.past tick other different
  · intro other member
    by_cases same : other = timer
    · subst other
      rcases log with unchanged | ⟨_, _, isDue⟩
      · exact sweep.due timer (unchanged ▸ member)
      · exact isDue
    · exact sweep.due other ((logOther _ _ (notSelf other _ same)).mp member)
  · intro other member
    rw [others other fun same => fresh.1 (same ▸ member)]
    exact sweep.queued other (List.mem_cons_of_mem _ member)
  · intro other pending
    by_cases same : other = timer
    · subst other
      exact range pending
    · rw [others other same] at pending ⊢
      exact sweep.range other pending
  · intro other pending absent
    by_cases same : other = timer
    · subst other
      exact waiting pending
    · rw [others other same] at pending ⊢
      refine sweep.waiting other pending fun member => ?_
      rcases List.mem_cons.mp member with equal | later
      · exact same equal
      · exact absent later
  · intro other
    by_cases same : other = timer
    · subst other
      exact view
    · simp only [others other same, logOther _ _ (notSelf other _ same)]
      exact sweep.view other

omit [DecidableEq Timer] in
/-- The state a callback leaves: only the accounting, the world and the log move. -/
theorem tmCall_spec (invoke : Cb → Timer → World → Int × World) (s : State Timer Cb World)
    (timer : Timer) :
    (tmCall invoke s timer).2.ticks = s.ticks ∧ (tmCall invoke s timer).2.current = s.current ∧
      (tmCall invoke s timer).2.slotList = s.slotList ∧
      (tmCall invoke s timer).2.node = s.node ∧
      (tmCall invoke s timer).2.log = (s.ticks, timer) :: s.log := by
  unfold tmCall
  dsimp only
  split <;> exact ⟨rfl, rfl, rfl, rfl, rfl⟩

omit [DecidableEq Timer] in
theorem tmCall_linked (invoke : Cb → Timer → World → Int × World) (linked : Linked s) :
    Linked (tmCall invoke s timer).2 := by
  obtain ⟨_, _, sameList, sameNode, _⟩ := tmCall_spec invoke s timer
  apply linked.congr sameList
  all_goals
    intro other
    simp only [sameNode, implies_true]

theorem resetCreate_node_self :
    (resetCreate s timer).node timer = { s.node timer with create := s.ticks } :=
  Function.update_self ..

theorem resetCreate_node_of_ne {other : Timer} (different : other ≠ timer) :
    (resetCreate s timer).node other = s.node other :=
  Function.update_of_ne different ..

theorem resetCreate_linked (linked : Linked s) : Linked (resetCreate s timer) := by
  have lists : (resetCreate s timer).slotList = s.slotList := rfl
  apply linked.congr lists
  all_goals
    intro other
    by_cases same : other = timer
    · subst other
      simp only [resetCreate_node_self, implies_true]
    · simp only [resetCreate_node_of_ne same, implies_true]

/-- What is left of a pending timer's delay inside the tick. -/
theorem Sweep.left_eq (sweep : Sweep n stage rest s) (pending : (s.node timer).pending = true) :
    s.ticks = n.now + 1 ∧ tmLeft s timer = (s.node timer).deadline - (n.now + 1) := by
  have range := sweep.range timer pending
  have ticks : s.ticks = n.now + 1 := by
    rw [sweep.ticks]
    exact Nat.mod_eq_of_lt (range.reach.trans_lt range.bounded)
  refine ⟨ticks, ?_⟩
  rw [← ticks]
  apply tmLeft_eq range.bounded
  have created := range.created
  have small := range.small
  rw [ticks]
  omega

/-- A pending timer with nothing left of its delay is due in this tick. -/
theorem Sweep.reached (sweep : Sweep n stage rest s) (pending : (s.node timer).pending = true)
    (timeout : tmLeft s timer = 0) : (s.node timer).deadline = n.now + 1 := by
  have left := (sweep.left_eq pending).2
  have reach := (sweep.range timer pending).reach
  omega

/-- A timer due in this tick that is still pending has not run in it. -/
theorem Sweep.not_fired (sweep : Sweep n stage rest s) (pending : (s.node timer).pending = true)
    (reached : (s.node timer).deadline = n.now + 1) : (n.now + 1, timer) ∉ s.log := by
  intro fired
  have view := sweep.view timer
  rw [if_pos fired, TmNode.view_of_pending pending] at view
  obtain ⟨armed, before, isDue⟩ := sweep.due timer fired
  simp only [Naive.tick, before, Option.bind_some, Armed.expire, isDue, ↓reduceIte] at view
  split at view
  · have created := congrArg Armed.create (Option.some.inj view)
    have positive := (sweep.range timer pending).positive
    unfold TmNode.deadline at reached
    simp only at created
    omega
  · cases view

/-- What the naive scheduler holds of a timer that is due in this tick and still
pending: its entry before the tick, and what the tick makes of it. -/
theorem Sweep.due_entry (sweep : Sweep n stage rest s) (pending : (s.node timer).pending = true)
    (reached : (s.node timer).deadline = n.now + 1) :
    n.armed timer = some ⟨(s.node timer).create, (s.node timer).expires, (s.node timer).cycle⟩ ∧
      timer ∈ n.due ∧
      n.tick.armed timer = if (s.node timer).cycle then
        some ⟨n.now + 1, (s.node timer).expires, (s.node timer).cycle⟩ else none := by
  have before := sweep.view timer
  rw [if_neg (sweep.not_fired pending reached), TmNode.view_of_pending pending] at before
  have isDue : Armed.deadline ⟨(s.node timer).create, (s.node timer).expires,
      (s.node timer).cycle⟩ = n.now + 1 := reached
  refine ⟨before.symm, ⟨_, before.symm, isDue⟩, ?_⟩
  simp only [Naive.tick, ← before, Option.bind_some, Armed.expire, isDue, ↓reduceIte]

omit [DecidableEq Timer] in
theorem le_shown (now stage ring : Nat) : now ≤ shown now stage ring := by
  unfold shown
  split <;> omega

omit [DecidableEq Timer] in
theorem shown_le (now stage ring : Nat) : shown now stage ring ≤ now + 1 := by
  unfold shown
  split <;> omega

omit [DecidableEq Timer] in
theorem shown_of_lt {now stage ring : Nat} (below : ring < stage) :
    now + 1 ≤ shown now stage ring := by
  simp only [shown, below, ↓reduceIte, le_refl]

/-- A visited timer that is not due yet is filed anew. -/
theorem Sweep.refile (sweep : Sweep n stage (timer :: rest) s) (early : tmLeft s timer ≠ 0) :
    Sweep n stage rest (tmInsert (tmRemove s timer) timer) := by
  have pending := sweep.queued timer (List.mem_cons_self ..)
  have range := sweep.range timer pending
  obtain ⟨ticks, left⟩ := sweep.left_eq pending
  have sameLeft : tmLeft (tmRemove s timer) timer = tmLeft s timer := by
    simp only [tmLeft, tmRemove_node_self, tmRemove_ticks]
  have node : (tmInsert (tmRemove s timer) timer).node timer =
      { s.node timer with
        ringIdx := (tmFindRing (tmRemove s timer) timer).1
        ringSlot := (tmFindRing (tmRemove s timer) timer).2
        pending := true } := by
    rw [tmInsert_node_self, tmRemove_node_self]
  apply sweep.visited
  · exact tmInsert_linked (tmRemove_linked sweep.linked) (by rw [tmRemove_node_self])
  · rfl
  · rfl
  · intro other different
    rw [tmInsert_node_of_ne different, tmRemove_node_of_ne different]
  · exact .inl rfl
  · intro _
    rw [node]
    exact ⟨range.positive, range.small, range.created, range.reach, range.bounded⟩
  · intro _
    apply tmInsert_waiting (shown n.now stage)
    · exact sweep.rings
    · exact le_shown n.now stage
    · exact fun ring below => shown_of_lt below
    · rw [sameLeft]
      exact Nat.pos_of_ne_zero early
    · have created := range.created
      have small := range.small
      rw [sameLeft, left]
      unfold TmNode.deadline
      omega
    · intro ring
      have bound := shown_le n.now stage ring
      rw [sameLeft, left, tmRemove_node_self]
      change _ ≤ (s.node timer).deadline
      omega
  · rw [node, tmInsert_log, tmRemove_log, ← sweep.view timer]
    simp only [TmNode.view, pending, ↓reduceIte]

/-- A visited timer that is due runs; one that does not repeat is then idle. -/
theorem Sweep.retire (sweep : Sweep n stage (timer :: rest) s)
    (invoke : Cb → Timer → World → Int × World) (timeout : tmLeft s timer = 0)
    (single : (s.node timer).cycle = false) :
    Sweep n stage rest (tmCall invoke (tmRemove s timer) timer).2 := by
  have pending := sweep.queued timer (List.mem_cons_self ..)
  have ticks := (sweep.left_eq pending).1
  have reached := sweep.reached pending timeout
  obtain ⟨_, isDue, after⟩ := sweep.due_entry pending reached
  obtain ⟨sameTicks, sameCurrent, sameList, sameNode, log⟩ :=
    tmCall_spec invoke (tmRemove s timer) timer
  rw [tmRemove_ticks, ticks, tmRemove_log] at log
  have idle : ¬ ((tmCall invoke (tmRemove s timer) timer).2.node timer).pending = true := by
    rw [sameNode, tmRemove_node_self]
    exact Bool.false_ne_true
  apply sweep.visited
  · exact tmCall_linked invoke (tmRemove_linked sweep.linked)
  · exact sameTicks
  · exact sameCurrent
  · intro other different
    rw [sameNode, tmRemove_node_of_ne different]
  · exact .inr ⟨log, sweep.not_fired pending reached, isDue⟩
  · exact fun pending => absurd pending idle
  · exact fun pending => absurd pending idle
  · rw [log, if_pos (List.mem_cons_self ..), after]
    simp only [TmNode.view, idle, Bool.false_eq_true, ↓reduceIte, single]

/-- A visited timer that is due runs; one that repeats is armed again from this
tick, if its next deadline fits the 64-bit clock. -/
theorem Sweep.rearm (sweep : Sweep n stage (timer :: rest) s)
    (invoke : Cb → Timer → World → Int × World) (timeout : tmLeft s timer = 0)
    (cycle : (s.node timer).cycle = true)
    (fits : n.now + 1 + (s.node timer).expires < 2 ^ 64) :
    Sweep n stage rest
      (tmInsert (resetCreate (tmCall invoke (tmRemove s timer) timer).2 timer) timer) := by
  have pending := sweep.queued timer (List.mem_cons_self ..)
  have range := sweep.range timer pending
  have ticks := (sweep.left_eq pending).1
  have reached := sweep.reached pending timeout
  obtain ⟨_, isDue, after⟩ := sweep.due_entry pending reached
  obtain ⟨sameTicks, sameCurrent, sameList, sameNode, log⟩ :=
    tmCall_spec invoke (tmRemove s timer) timer
  rw [tmRemove_ticks, ticks] at sameTicks
  rw [tmRemove_ticks, ticks, tmRemove_log] at log
  have linked : Linked (tmCall invoke (tmRemove s timer) timer).2 :=
    tmCall_linked invoke (tmRemove_linked sweep.linked)
  generalize tmCall invoke (tmRemove s timer) timer = called at *
  have armed : (resetCreate called.2 timer).node timer =
      { s.node timer with pending := false, create := n.now + 1 } := by
    rw [resetCreate_node_self, sameTicks, sameNode, tmRemove_node_self]
  have node : (tmInsert (resetCreate called.2 timer) timer).node timer =
      { s.node timer with
        create := n.now + 1
        ringIdx := (tmFindRing (resetCreate called.2 timer) timer).1
        ringSlot := (tmFindRing (resetCreate called.2 timer) timer).2
        pending := true } := by
    rw [tmInsert_node_self, armed]
  have deadline : ((resetCreate called.2 timer).node timer).deadline =
      n.now + 1 + (s.node timer).expires := by
    rw [armed]
    rfl
  have newLeft : tmLeft (resetCreate called.2 timer) timer = (s.node timer).expires := by
    have expires : ((resetCreate called.2 timer).node timer).deadline -
        (resetCreate called.2 timer).ticks = (s.node timer).expires := by
      change ((resetCreate called.2 timer).node timer).deadline - called.2.ticks = _
      omega
    rw [← expires]
    apply tmLeft_eq
    · exact deadline.trans_lt fits
    · exact expires.trans_lt range.small
  apply sweep.visited
  · exact tmInsert_linked (resetCreate_linked linked) (by rw [armed])
  · exact sameTicks.trans ticks.symm
  · exact sameCurrent
  · intro other different
    rw [tmInsert_node_of_ne different, resetCreate_node_of_ne different, sameNode,
      tmRemove_node_of_ne different]
  · exact .inr ⟨log, sweep.not_fired pending reached, isDue⟩
  · intro _
    rw [node]
    exact ⟨range.positive, range.small, le_rfl, Nat.le_add_right .., fits⟩
  · intro _
    apply tmInsert_waiting (shown n.now stage)
    · intro ring inside
      rw [← sweep.rings ring inside]
      exact congrFun sameCurrent ring
    · exact le_shown n.now stage
    · exact fun ring below => shown_of_lt below
    · rw [newLeft]
      exact range.positive
    · rw [newLeft]
      exact range.small
    · intro ring
      rw [newLeft, deadline]
      exact Nat.add_le_add_right (shown_le n.now stage ring) _
  · have logged : (n.now + 1, timer) ∈ (tmInsert (resetCreate called.2 timer) timer).log := by
      change _ ∈ called.2.log
      rw [log]
      exact List.mem_cons_self ..
    rw [node, if_pos logged, after]
    simp only [TmNode.view, ↓reduceIte, cycle]

end Trunk.Timer
