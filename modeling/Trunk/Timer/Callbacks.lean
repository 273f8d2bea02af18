import Trunk.Timer.Carry
import Trunk.Timer.Reentrant

/-! # What callbacks may do to the wheel

A run in which no callback removes the timer that the loop saved as the next one, and in which a
callback that calls the API on its own timer leaves it one that does not repeat, keeps the wheel
in order: a pending timer is on one list, a timer that was removed does not fire before it is
inserted again, and every timer that is due in a slot fires or is removed
(`Trunk.Timer.callbacks_sound`). Without the second condition a repeating timer that removes
itself goes on firing (`Trunk.Timer.callback_fires_after_remove`).
-/

namespace Trunk.Timer

open Run

variable {Timer Cb World : Type} {s s' : State Timer Cb World} {timer other : Timer}
  {events : List (Event Timer)} {ring slot : Nat} {front rest : List Timer}

/-- The last call on a timer was a removal. The newest event is first. -/
def Silenced : List (Event Timer) → Timer → Prop
  | [], _ => False
  | .removed timer :: events, other => other = timer ∨ Silenced events other
  | .inserted timer :: events, other => other ≠ timer ∧ Silenced events other
  | .fired _ :: events, other => Silenced events other

/-- No timer fired while it was silenced. -/
def Obeys : List (Event Timer) → Prop
  | [] => True
  | .fired timer :: events => ¬ Silenced events timer ∧ Obeys events
  | .removed _ :: events => Obeys events
  | .inserted _ :: events => Obeys events

/-- Between a removal of a timer and a later run of its callback it was inserted. -/
def NoLateFiring (events : List (Event Timer)) : Prop :=
  ∀ later between earlier timer,
    events = later ++ .fired timer :: between ++ .removed timer :: earlier →
      .inserted timer ∈ between

theorem silenced_of_removed {between earlier : List (Event Timer)}
    (quiet : .inserted timer ∉ between) : Silenced (between ++ .removed timer :: earlier) timer := by
  induction between with
  | nil => exact .inl rfl
  | cons event between ih =>
      rw [List.mem_cons, not_or] at quiet
      have silenced := ih quiet.2
      cases event with
      | inserted other => exact ⟨fun same => quiet.1 (congrArg Event.inserted same), silenced⟩
      | removed other => exact .inr silenced
      | fired other => exact silenced

theorem Obeys.noLateFiring (obeys : Obeys events) : NoLateFiring events := by
  intro later between earlier timer split
  subst events
  induction later with
  | nil =>
      by_contra quiet
      exact obeys.1 (silenced_of_removed quiet)
  | cons event later ih =>
      cases event with
      | inserted _ => exact ih obeys
      | removed _ => exact ih obeys
      | fired _ => exact ih obeys.2

/-- The calls that a callback may make: insertions of timers that are not pending, and any
removals. -/
def Call.Legal (s : State Timer Cb World) : Call Timer Cb → Prop
  | .insert timer after _ _ => (s.node timer).pending = false ∧ 1 ≤ after ∧ after < 2 ^ 31
  | .remove _ => True

variable [DecidableEq Timer]

/-- Calls that are each legal when they are made. -/
def LegalCalls : State Timer Cb World → List (Call Timer Cb) → Prop
  | _, [] => True
  | s, call :: calls => call.Legal s ∧ LegalCalls (perform s call) calls

/-- A callback run that the loop of `tm_ring_trigger` copes with: it does not remove the timer
that was saved as the next one, and it calls the API on its own timer only if it leaves that
one not repeating. -/
structure Visit.Polite (visit : Visit Timer Cb World) : Prop where
  next : ∀ next, visit.next = some next → .remove next ∉ visit.calls
  own : ((visit.calls.foldl perform visit.before).node visit.timer).cycle = true →
    ∀ call ∈ visit.calls, call.timer ≠ visit.timer

/-- What one legal call does. -/
structure Performed (s : State Timer Cb World) (call : Call Timer Cb)
    (s' : State Timer Cb World) : Prop where
  linked : Linked s'
  ticks : s'.ticks = s.ticks
  current : s'.current = s.current
  others : ∀ other, other ≠ call.timer → s'.node other = s.node other
  lists : ∀ ring slot, ∃ front,
    s'.slotList ring slot = front ++ (s.slotList ring slot).erase call.timer
  quiet : ∀ timer, call = .remove timer → (s'.node timer).pending = false

theorem perform_insert (s : State Timer Cb World) {after : Nat} (positive : 1 ≤ after) (cb : Cb)
    (cycle : Bool) :
    perform s (.insert timer after cb cycle) =
      { tmInsert { s with node := Function.update s.node timer { s.node timer with
            create := s.ticks
            expires := after % 2 ^ 32
            pending := false
            cycle := cycle
            cb := some cb } } timer with inserted := s.inserted + 1 } := by
  have positiveInt : ¬ (after : Int) ≤ 0 := by omega
  simp only [perform, osTmInsert, Option.isNone_some, Bool.false_eq_true, ↓reduceIte, positiveInt,
    Int.toNat_natCast]
  rfl

omit [DecidableEq Timer] in
theorem Linked.notMem (linked : Linked s) (idle : (s.node timer).pending = false) (ring slot : Nat) :
    timer ∉ s.slotList ring slot := by
  intro member
  have pending := ((linked.mem ring slot timer).mp member).1
  rw [idle] at pending
  exact Bool.false_ne_true pending

/-- A node that is on no list may be rewritten. -/
theorem Linked.setNode (linked : Linked s) (idle : (s.node timer).pending = false)
    {fields : TmNode Cb} (stillIdle : fields.pending = false) :
    Linked { s with node := Function.update s.node timer fields } := by
  refine linked.congr rfl ?_ ?_ ?_
  · intro other
    by_cases same : other = timer
    · subst other
      simp only [Function.update_self, stillIdle, idle]
    · simp only [Function.update_of_ne same]
  all_goals
    intro other pending
    have different : other ≠ timer := by
      rintro rfl
      rw [idle] at pending
      exact Bool.false_ne_true pending
    simp only [Function.update_of_ne different]

/-- `tm_insert` puts a timer in front of a list. -/
theorem tmInsert_lists (s : State Timer Cb World) (timer : Timer) (ring slot : Nat) :
    ∃ front, (tmInsert s timer).slotList ring slot = front ++ s.slotList ring slot := by
  have lists : (tmInsert s timer).slotList ring slot = _ := setAt_apply ..
  rw [lists]
  split
  · rename_i here
    rw [here.1, here.2]
    exact ⟨[timer], rfl⟩
  · exact ⟨[], rfl⟩

/-- One legal call, on a wheel in order. -/
theorem perform_spec {call : Call Timer Cb} (linked : Linked s) (legal : call.Legal s) :
    Performed s call (perform s call) := by
  cases call with
  | insert timer after cb cycle =>
      obtain ⟨idle, positive, -⟩ := legal
      rw [perform_insert s positive]
      refine {
        linked := (tmInsert_linked (linked.setNode idle rfl) ?_).congr rfl (fun _ => rfl)
          (fun _ _ => rfl) (fun _ _ => rfl)
        ticks := rfl
        current := rfl
        others := ?_
        lists := ?_
        quiet := nofun }
      · simp only [Function.update_self]
      · intro other different
        exact (tmInsert_node_of_ne different).trans (Function.update_of_ne different ..)
      · intro ring slot
        rw [Call.timer, List.erase_of_not_mem (linked.notMem idle ring slot)]
        exact tmInsert_lists _ timer ring slot
  | remove timer =>
      unfold perform osTmRemove
      dsimp only
      split
      · have idle : ((tmRemove s timer).node timer).pending = false := by rw [tmRemove_node_self]
        refine {
          linked := ((tmRemove_linked linked).setNode idle rfl).congr rfl (fun _ => rfl)
            (fun _ _ => rfl) (fun _ _ => rfl)
          ticks := rfl
          current := rfl
          others := ?_
          lists := fun ring slot => ⟨[], rfl⟩
          quiet := ?_ }
        · intro other different
          exact (Function.update_of_ne different ..).trans (tmRemove_node_of_ne different)
        · intro other same
          obtain rfl := Call.remove.inj same
          simp only [Function.update_self]
      · rename_i idle
        rw [Bool.not_eq_true] at idle
        refine {
          linked := linked
          ticks := rfl
          current := rfl
          others := fun _ _ => rfl
          lists := fun ring slot => ⟨[], ?_⟩
          quiet := ?_ }
        · rw [Call.timer, List.erase_of_not_mem (linked.notMem idle ring slot), List.nil_append]
        · intro other same
          obtain rfl := Call.remove.inj same
          exact idle

/-- What calls leave of the rest of a slot: its first timer is first still, and a timer of it
that none of them removed is there as it was. -/
structure Spared (calls : List (Call Timer Cb)) (ring slot : Nat) (rest : List Timer)
    (s s' : State Timer Cb World) (rest' : List Timer) : Prop where
  list : ∃ front, s'.slotList ring slot = front ++ rest'
  head : rest'.head? = rest.head?
  shorter : rest'.length ≤ rest.length
  kept : ∀ timer ∈ rest, .remove timer ∈ calls ∨ (timer ∈ rest' ∧ s'.node timer = s.node timer)

theorem head?_erase_of_ne {list : List Timer} (different : list.head? ≠ some timer) :
    (list.erase timer).head? = list.head? := by
  cases list with
  | nil => rfl
  | cons first list =>
      have other : ¬ (first == timer) = true := by
        rw [beq_iff_eq]
        rintro rfl
        exact different rfl
      rw [List.erase_cons_tail other]
      rfl

omit [DecidableEq Timer] in
/-- A legal call on a pending timer is a removal. -/
theorem Call.Legal.remove {call : Call Timer Cb} (legal : call.Legal s)
    (pending : (s.node call.timer).pending = true) : call = .remove call.timer := by
  cases call with
  | insert timer after cb cycle =>
      obtain ⟨idle, -⟩ := legal
      exact absurd (idle.symm.trans pending) Bool.false_ne_true
  | remove timer => rfl

theorem perform_spared {call : Call Timer Cb} (linked : Linked s) (legal : call.Legal s)
    (list : s.slotList ring slot = front ++ rest)
    (spared : ∀ next, rest.head? = some next → call ≠ .remove next) :
    ∃ rest', Spared [call] ring slot rest s (perform s call) rest' := by
  have done := perform_spec linked legal
  have removal (member : call.timer ∈ rest) : call = .remove call.timer := by
    apply legal.remove
    refine ((linked.mem ring slot call.timer).mp ?_).1
    rw [list]
    exact List.mem_append_right _ member
  obtain ⟨added, lists⟩ := done.lists ring slot
  rw [list, List.erase_append] at lists
  split at lists
  · -- the timer of the call is in front: the rest stays as it is
    rename_i inFront
    have apart : call.timer ∉ rest := by
      have nodup := linked.nodup ring slot
      rw [list] at nodup
      exact fun member => (List.nodup_append.mp nodup).2.2 _ inFront _ member rfl
    refine ⟨rest, ⟨⟨added ++ front.erase call.timer, ?_⟩, rfl, le_refl _, ?_⟩⟩
    · rw [lists, List.append_assoc]
    · intro timer member
      refine .inr ⟨member, done.others timer ?_⟩
      rintro rfl
      exact apart member
  · refine ⟨rest.erase call.timer, ⟨⟨added ++ front, ?_⟩, ?_, List.length_erase_le, ?_⟩⟩
    · rw [lists, List.append_assoc]
    · apply head?_erase_of_ne
      intro first
      exact spared call.timer first (removal (List.mem_of_head? first))
    · intro timer member
      by_cases same : timer = call.timer
      · subst timer
        exact .inl (List.mem_singleton.mpr (removal member).symm)
      · exact .inr ⟨(List.mem_erase_of_ne same).mpr member, done.others timer same⟩

theorem calls_spared (calls : List (Call Timer Cb)) (linked : Linked s)
    (legal : LegalCalls s calls) (list : s.slotList ring slot = front ++ rest)
    (spared : ∀ next, rest.head? = some next → .remove next ∉ calls) :
    ∃ rest', Spared calls ring slot rest s (calls.foldl perform s) rest' := by
  induction calls generalizing s front rest with
  | nil => exact ⟨rest, ⟨⟨front, list⟩, rfl, le_refl _, fun timer member => .inr ⟨member, rfl⟩⟩⟩
  | cons call calls ih =>
      obtain ⟨legalHere, legalLater⟩ := legal
      obtain ⟨middle, first⟩ := perform_spared linked legalHere list fun next head same =>
        spared next head (same ▸ List.mem_cons_self ..)
      obtain ⟨front', middleList⟩ := first.list
      obtain ⟨rest', later⟩ := ih (perform_spec linked legalHere).linked legalLater middleList
        fun next head member =>
          spared next (first.head ▸ head) (List.mem_cons_of_mem _ member)
      refine ⟨rest', ⟨later.list, later.head.trans first.head, later.shorter.trans first.shorter,
        ?_⟩⟩
      intro timer member
      rcases first.kept timer member with removed | ⟨still, same⟩
      · exact .inl (List.mem_singleton.mp removed ▸ List.mem_cons_self ..)
      · rcases later.kept timer still with removed | ⟨last, lastSame⟩
        · exact .inl (List.mem_cons_of_mem _ removed)
        · exact .inr ⟨last, lastSame.trans same⟩

variable {r r' : Traced Timer Cb World}

/-- The wheel of a record is in order. -/
structure Ordered (r : Traced Timer Cb World) : Prop where
  linked : Linked r.clock
  silent : ∀ timer, Silenced r.events timer → (r.clock.node timer).pending = false
  obeys : Obeys r.events
  whole : r.broken = false
  seen : ∀ visit ∈ r.visits, Linked visit.before

/-- One legal call, of the program or of a callback. -/
theorem Ordered.call (ordered : Ordered r) {call : Call Timer Cb} (legal : call.Legal r.clock) :
    Ordered (r.call call) := by
  have done := perform_spec ordered.linked legal
  refine ⟨done.linked, ?_, ?_, ?_, ordered.seen⟩
  · cases call with
    | insert timer after cb cycle =>
        rintro other ⟨different, silenced⟩
        exact (congrArg TmNode.pending (done.others other different)).trans
          (ordered.silent other silenced)
    | remove timer =>
        rintro other (rfl | silenced)
        · exact done.quiet other rfl
        · by_cases same : other = timer
          · subst other
            exact done.quiet timer rfl
          · exact (congrArg TmNode.pending (done.others other same)).trans
              (ordered.silent other silenced)
  · cases call <;> exact ordered.obeys
  · cases call with
    | insert timer after cb cycle =>
        simp only [Traced.call, ordered.whole, legal.1, Bool.or_self]
    | remove timer => simp only [Traced.call, ordered.whole, Bool.or_self]

/-- What calls leave alone. -/
structure CalledFrom (r : Traced Timer Cb World) (calls : List (Call Timer Cb))
    (r' : Traced Timer Cb World) : Prop where
  clock : r'.clock = calls.foldl perform r.clock
  ticks : r'.clock.ticks = r.clock.ticks
  current : r'.clock.current = r.clock.current
  others : ∀ other, (∀ call ∈ calls, call.timer ≠ other) →
    r'.clock.node other = r.clock.node other
  events : r'.events = (calls.map Call.event).reverse ++ r.events
  sweeps : r'.sweeps = r.sweeps

/-- The calls of a callback, one after another. -/
theorem Ordered.calls (calls : List (Call Timer Cb)) (ordered : Ordered r)
    (legal : LegalCalls r.clock calls) :
    Ordered (calls.foldl Traced.call r) ∧ CalledFrom r calls (calls.foldl Traced.call r) := by
  induction calls generalizing r with
  | nil => exact ⟨ordered, rfl, rfl, rfl, fun _ _ => rfl, rfl, rfl⟩
  | cons call calls ih =>
      obtain ⟨here, later⟩ := legal
      have done := perform_spec ordered.linked here
      obtain ⟨last, rest⟩ := ih (ordered.call here) later
      refine ⟨last, ⟨rest.clock, rest.ticks.trans done.ticks, rest.current.trans done.current, ?_, ?_,
        rest.sweeps⟩⟩
      · intro other apart
        have first := apart call (List.mem_cons_self ..)
        exact (rest.others other fun call member => apart call (List.mem_cons_of_mem _ member)).trans
          (done.others other first.symm)
      · rw [List.foldl_cons, rest.events, List.map_cons, List.reverse_cons, List.append_assoc]
        rfl

omit [DecidableEq Timer] in
/-- A timer is silenced by a removal. -/
theorem silenced_append {added : List (Event Timer)} (silenced : Silenced (added ++ events) timer) :
    Silenced events timer ∨ .removed timer ∈ added := by
  induction added with
  | nil => exact .inl silenced
  | cons event added ih =>
      have later (before : Silenced (added ++ events) timer) :
          Silenced events timer ∨ .removed timer ∈ event :: added :=
        (ih before).imp_right (List.mem_cons_of_mem _)
      cases event with
      | inserted _ => exact later silenced.2
      | removed _ =>
          rcases silenced with rfl | before
          · exact .inr (List.mem_cons_self ..)
          · exact later before
      | fired _ => exact later silenced

omit [DecidableEq Timer] in
/-- The event of a removal is that of a removal. -/
theorem removed_mem_events {calls : List (Call Timer Cb)} :
    .removed timer ∈ (calls.map Call.event).reverse ↔ .remove timer ∈ calls := by
  rw [List.mem_reverse, List.mem_map]
  constructor
  · rintro ⟨call, member, same⟩
    cases call with
    | insert _ _ _ _ => cases same
    | remove other =>
        obtain rfl := Event.removed.inj same
        exact member
  · exact fun member => ⟨_, member, rfl⟩

/-- The calls of the callback of a timer. -/
def callsOf (invoke : Behaviour Timer Cb World) (s : State Timer Cb World) (timer : Timer) :
    List (Call Timer Cb) :=
  ((s.node timer).cb.elim ([], 0, s.world) fun cb => invoke cb timer s).1

/-- The clocks have the same wheel. -/
structure SameWheel (s s' : State Timer Cb World) : Prop where
  ticks : s'.ticks = s.ticks
  current : s'.current = s.current
  slotList : s'.slotList = s.slotList
  node : s'.node = s.node

omit [DecidableEq Timer] in
theorem SameWheel.linked (same : SameWheel s s') (linked : Linked s) : Linked s' := by
  refine linked.congr same.slotList ?_ ?_ ?_ <;> simp only [same.node, implies_true]

/-- The record of a callback run is that of its calls. -/
structure FiredFrom (called r' : Traced Timer Cb World) : Prop where
  wheel : SameWheel called.clock r'.clock
  broken : r'.broken = called.broken
  events : r'.events = called.events
  visits : r'.visits = called.visits
  sweeps : r'.sweeps = called.sweeps

theorem fire_spec (invoke : Behaviour Timer Cb World) (r : Traced Timer Cb World) (timer : Timer)
    (next : Option Timer) :
    FiredFrom ((callsOf invoke r.clock timer).foldl Traced.call { r with
        events := .fired timer :: r.events
        visits := ⟨timer, next, r.clock, callsOf invoke r.clock timer⟩ :: r.visits })
      (r.fire invoke timer next).2 := by
  unfold Traced.fire
  dsimp only
  split <;> exact ⟨⟨rfl, rfl, rfl, rfl⟩, rfl, rfl, rfl, rfl⟩

omit [DecidableEq Timer] in
theorem FiredFrom.ordered {called : Traced Timer Cb World} (fired : FiredFrom called r')
    (ordered : Ordered called) : Ordered r' := by
  refine ⟨fired.wheel.linked ordered.linked, ?_, ?_, ?_, ?_⟩
  · rw [fired.events, fired.wheel.node]
    exact ordered.silent
  · rw [fired.events]
    exact ordered.obeys
  · rw [fired.broken]
    exact ordered.whole
  · rw [fired.visits]
    exact ordered.seen

/-- A timer that is not pending and was not removed is filed again. -/
theorem Ordered.refile (ordered : Ordered r) (idle : (r.clock.node timer).pending = false)
    (heard : ¬ Silenced r.events timer) : Ordered (r.refile timer) := by
  refine ⟨tmInsert_linked ordered.linked idle, ?_, ordered.obeys, ?_, ordered.seen⟩
  · intro other silenced
    have different : other ≠ timer := by
      rintro rfl
      exact heard silenced
    exact (congrArg TmNode.pending (tmInsert_node_of_ne different)).trans
      (ordered.silent other silenced)
  · simp only [Traced.refile, ordered.whole, idle, Bool.or_self]

/-- A callback run that keeps to the rules. -/
def Visit.Good (visit : Visit Timer Cb World) : Prop :=
  LegalCalls visit.before visit.calls ∧ visit.Polite

/-- What a visit of the first of the timers left in a slot does. -/
structure Visited (r : Traced Timer Cb World) (ring slot : Nat) (timer : Timer)
    (rest : List Timer) (r' : Traced Timer Cb World) (rest' : List Timer)
    (during : List (Event Timer)) : Prop where
  ordered : Ordered r'
  ticks : r'.clock.ticks = r.clock.ticks
  current : r'.clock.current = r.clock.current
  events : r'.events = during ++ r.events
  list : ∃ front, r'.clock.slotList ring slot = front ++ rest'
  head : rest'.head? = rest.head?
  shorter : rest'.length ≤ rest.length
  due : tmLeft r.clock timer = 0 → .fired timer ∈ during
  kept : ∀ other ∈ rest, .removed other ∈ during ∨
    (other ∈ rest' ∧ r'.clock.node other = r.clock.node other)
  sweeps : r'.sweeps = r.sweeps

section Take

variable (ordered : Ordered r) (list : r.clock.slotList ring slot = front ++ timer :: rest)

include ordered list

omit [DecidableEq Timer] in
theorem Ordered.heard : ¬ Silenced r.events timer := by
  intro silenced
  have pending := ((ordered.linked.mem ring slot timer).mp (by rw [list]; simp)).1
  rw [ordered.silent timer silenced] at pending
  exact Bool.false_ne_true pending

omit [DecidableEq Timer] in
theorem Ordered.notMem_rest : timer ∉ front ∧ timer ∉ rest := by
  have nodup := ordered.linked.nodup ring slot
  rw [list, List.nodup_append, List.nodup_cons] at nodup
  exact ⟨fun member => nodup.2.2 timer member timer (List.mem_cons_self ..) rfl, nodup.2.1.1⟩

theorem Ordered.take_list : (tmRemove r.clock timer).slotList ring slot = front ++ rest := by
  change (r.clock.slotList ring slot).erase timer = _
  rw [list, List.erase_append_right _ (ordered.notMem_rest list).1, List.erase_cons_head]

omit list in
/-- `tm_remove` of the node that is visited. -/
theorem Ordered.take : Ordered { r with clock := tmRemove r.clock timer } := by
  refine ⟨tmRemove_linked ordered.linked, ?_, ordered.obeys, ordered.whole, ordered.seen⟩
  intro other silenced
  by_cases same : other = timer
  · subst other
    rw [tmRemove_node_self]
  · rw [tmRemove_node_of_ne same]
    exact ordered.silent other silenced

/-- A node that is not due is filed again. -/
theorem Ordered.visit_refile (early : tmLeft r.clock timer ≠ 0) :
    Visited r ring slot timer rest ({ r with clock := tmRemove r.clock timer }.refile timer) rest
      [] := by
  have idle : ((tmRemove r.clock timer).node timer).pending = false := by rw [tmRemove_node_self]
  obtain ⟨added, lists⟩ := tmInsert_lists (tmRemove r.clock timer) timer ring slot
  refine {
    ordered := ordered.take.refile idle (ordered.heard list)
    ticks := rfl
    current := rfl
    events := rfl
    list := ⟨added ++ front, ?_⟩
    head := rfl
    shorter := le_refl _
    due := fun left => absurd left early
    kept := fun other member => .inr ⟨member, ?_⟩
    sweeps := rfl }
  · rw [ordered.take_list list] at lists
    rw [List.append_assoc]
    exact lists
  · have different : other ≠ timer := by
      rintro rfl
      exact (ordered.notMem_rest list).2 member
    exact (tmInsert_node_of_ne different).trans (tmRemove_node_of_ne different)

end Take

/-- The callback of a timer that is on no list. If the timer repeats afterwards, it still is on
no list, and was not removed. -/
theorem Ordered.fire (invoke : Behaviour Timer Cb World) (ordered : Ordered r)
    (idle : (r.clock.node timer).pending = false) (heard : ¬ Silenced r.events timer)
    (list : r.clock.slotList ring slot = front ++ rest)
    (good : Visit.Good ⟨timer, rest.head?, r.clock, callsOf invoke r.clock timer⟩) :
    ∃ rest' during, Visited r ring slot timer rest (r.fire invoke timer rest.head?).2 rest' during ∧
      .fired timer ∈ during ∧
      (((r.fire invoke timer rest.head?).2.clock.node timer).cycle = true →
        ((r.fire invoke timer rest.head?).2.clock.node timer).pending = false ∧
        ¬ Silenced (r.fire invoke timer rest.head?).2.events timer) := by
  obtain ⟨legal, polite⟩ := good
  have fired := fire_spec invoke r timer rest.head?
  have noted : Ordered { r with
      events := .fired timer :: r.events
      visits := ⟨timer, rest.head?, r.clock, callsOf invoke r.clock timer⟩ :: r.visits } :=
    ⟨ordered.linked, ordered.silent, ⟨heard, ordered.obeys⟩, ordered.whole,
      List.forall_mem_cons.mpr ⟨ordered.linked, ordered.seen⟩⟩
  obtain ⟨last, calls⟩ := noted.calls _ legal
  obtain ⟨rest', spared⟩ := calls_spared _ ordered.linked legal list polite.next
  have node : (r.fire invoke timer rest.head?).2.clock.node =
      ((callsOf invoke r.clock timer).foldl perform r.clock).node := by
    rw [fired.wheel.node, calls.clock]
  have events : (r.fire invoke timer rest.head?).2.events =
      ((callsOf invoke r.clock timer).map Call.event).reverse ++ .fired timer :: r.events := by
    rw [fired.events, calls.events]
  refine ⟨rest', ((callsOf invoke r.clock timer).map Call.event).reverse ++ [.fired timer], {
    ordered := fired.ordered last
    ticks := fired.wheel.ticks.trans calls.ticks
    current := fired.wheel.current.trans calls.current
    events := ?_
    list := ?_
    head := spared.head
    shorter := spared.shorter
    due := fun _ => List.mem_append_right _ (List.mem_singleton.mpr rfl)
    kept := ?_
    sweeps := fired.sweeps.trans calls.sweeps },
    List.mem_append_right _ (List.mem_singleton.mpr rfl), ?_⟩
  · rw [events, List.append_assoc, List.singleton_append]
  · rw [fired.wheel.slotList, calls.clock]
    exact spared.list
  · intro other member
    rw [node]
    refine (spared.kept other member).imp_left fun removed => ?_
    exact List.mem_append_left _ (removed_mem_events.mpr removed)
  · intro cycle
    rw [node] at cycle
    have apart := polite.own cycle
    refine ⟨?_, ?_⟩
    · rw [fired.wheel.node, calls.others timer apart]
      exact idle
    · rw [events]
      intro silenced
      rcases silenced_append silenced with before | removed
      · exact heard before
      · exact apart _ (removed_mem_events.mp removed) rfl

theorem foldl_call_visits (calls : List (Call Timer Cb)) (r : Traced Timer Cb World) :
    (calls.foldl Traced.call r).visits = r.visits := by
  induction calls generalizing r with
  | nil => rfl
  | cons call calls ih => exact ih (r.call call)

/-- The visits of a visit. -/
theorem visit_visits (invoke : Behaviour Timer Cb World) (acc : Int × Traced Timer Cb World)
    (timer : Timer) (next : Option Timer) :
    (Traced.visit invoke acc timer next).2.visits =
      if tmLeft acc.2.clock timer = 0 then ⟨timer, next, tmRemove acc.2.clock timer,
        callsOf invoke (tmRemove acc.2.clock timer) timer⟩ :: acc.2.visits
      else acc.2.visits := by
  have fired := (fire_spec invoke { acc.2 with clock := tmRemove acc.2.clock timer } timer
    next).visits
  rw [foldl_call_visits] at fired
  unfold Traced.visit
  dsimp only
  split
  · split
    · exact fired
    · exact fired
  · rfl

/-- `node->create = CLOCK.ticks` of a timer that is on no list. -/
theorem Ordered.resetCreate (ordered : Ordered r) :
    Ordered { r with clock := resetCreate r.clock timer } := by
  refine ⟨resetCreate_linked ordered.linked, ?_, ordered.obeys, ordered.whole, ordered.seen⟩
  intro other silenced
  by_cases same : other = timer
  · subst other
    rw [resetCreate_node_self]
    exact ordered.silent timer silenced
  · rw [resetCreate_node_of_ne same]
    exact ordered.silent other silenced

section Around

variable {rest' : List Timer} {during : List (Event Timer)} (apart : timer ∉ rest)

include apart

/-- The visit starts when the node is taken off its list. -/
theorem Visited.of_take (ran : .fired timer ∈ during)
    (visited : Visited { r with clock := tmRemove r.clock timer } ring slot timer rest r' rest'
      during) : Visited r ring slot timer rest r' rest' during where
  ordered := visited.ordered
  ticks := visited.ticks
  current := visited.current
  events := visited.events
  list := visited.list
  head := visited.head
  shorter := visited.shorter
  due _ := ran
  kept other member := by
    have different : other ≠ timer := by
      rintro rfl
      exact apart member
    refine (visited.kept other member).imp_right fun still => ⟨still.1, still.2.trans ?_⟩
    exact tmRemove_node_of_ne different
  sweeps := visited.sweeps

/-- A repeating node is filed again after its callback. -/
theorem Visited.again (visited : Visited r ring slot timer rest r' rest' during)
    (idle : (r'.clock.node timer).pending = false) (heard : ¬ Silenced r'.events timer) :
    Visited r ring slot timer rest
      ({ r' with clock := resetCreate r'.clock timer }.refile timer) rest' during := by
  have still : ((resetCreate r'.clock timer).node timer).pending = false := by
    rw [resetCreate_node_self]
    exact idle
  obtain ⟨added, lists⟩ := tmInsert_lists (resetCreate r'.clock timer) timer ring slot
  obtain ⟨front, list⟩ := visited.list
  refine {
    ordered := visited.ordered.resetCreate.refile still heard
    ticks := visited.ticks
    current := visited.current
    events := visited.events
    list := ⟨added ++ front, ?_⟩
    head := visited.head
    shorter := visited.shorter
    due := visited.due
    kept := fun other member => ?_
    sweeps := visited.sweeps }
  · rw [List.append_assoc, ← list]
    exact lists
  · have different : other ≠ timer := by
      rintro rfl
      exact apart member
    refine (visited.kept other member).imp_right fun still => ⟨still.1, ?_⟩
    exact ((tmInsert_node_of_ne different).trans (resetCreate_node_of_ne different)).trans still.2

end Around

/-- The loop body of `tm_ring_trigger`. -/
theorem Ordered.visit (invoke : Behaviour Timer Cb World) {acc : Int × Traced Timer Cb World}
    (ordered : Ordered acc.2) (list : acc.2.clock.slotList ring slot = front ++ timer :: rest)
    (good : ∀ visit ∈ (Traced.visit invoke acc timer rest.head?).2.visits, visit.Good) :
    ∃ rest' during, Visited acc.2 ring slot timer rest
      (Traced.visit invoke acc timer rest.head?).2 rest' during := by
  rw [visit_visits] at good
  have idle : ((tmRemove acc.2.clock timer).node timer).pending = false := by
    rw [tmRemove_node_self]
  have apart := (ordered.notMem_rest list).2
  by_cases timeout : tmLeft acc.2.clock timer = 0
  · rw [if_pos timeout] at good
    obtain ⟨rest', during, visited, ran, again⟩ := ordered.take.fire invoke idle
      (ordered.heard list) (ordered.take_list list) (good _ (List.mem_cons_self ..))
    refine ⟨rest', during, ?_⟩
    simp only [Traced.visit, timeout, ↓reduceIte]
    split
    · rename_i cycle
      obtain ⟨still, unheard⟩ := again cycle
      exact (visited.of_take apart ran).again apart still unheard
    · exact visited.of_take apart ran
  · refine ⟨rest, [], ?_⟩
    simp only [Traced.visit, timeout, ↓reduceIte]
    exact ordered.visit_refile list timeout

/-- What the loop over the timers left in a slot does. -/
structure Swept (r : Traced Timer Cb World) (rest : List Timer) (r' : Traced Timer Cb World)
    (during : List (Event Timer)) : Prop where
  ordered : Ordered r'
  ticks : r'.clock.ticks = r.clock.ticks
  current : r'.clock.current = r.clock.current
  events : r'.events = during ++ r.events
  due : ∀ timer ∈ rest, tmLeft r.clock timer = 0 → .fired timer ∈ during ∨ .removed timer ∈ during
  sweeps : r'.sweeps = r.sweeps

/-- The loop of `tm_ring_trigger`, from the saved node on. -/
abbrev loopFrom (invoke : Behaviour Timer Cb World) (ring slot fuel : Nat)
    (node : Option Timer) (acc : Int × Traced Timer Cb World) : Int × Traced Timer Cb World :=
  (Walk.walk (fun acc => acc.2.clock.slotList ring slot) (Traced.round invoke ring slot) fuel node
    acc).2

/-- A round of the loop takes nothing off the record. -/
theorem round_visits (invoke : Behaviour Timer Cb World) (acc : Int × Traced Timer Cb World)
    (timer : Timer) : acc.2.visits <:+ (Traced.round invoke ring slot acc timer).2.2.visits := by
  unfold Traced.round
  dsimp only
  split
  · rw [visit_visits]
    split
    · exact List.suffix_cons _ _
    · exact List.suffix_rfl
  · exact List.suffix_rfl

theorem loopFrom_visits (invoke : Behaviour Timer Cb World) (ring slot fuel : Nat)
    (node : Option Timer) (acc : Int × Traced Timer Cb World) :
    acc.2.visits <:+ (loopFrom invoke ring slot fuel node acc).2.visits := by
  have keeps : ∀ (state : Int × Traced Timer Cb World) (item : Timer),
      acc.2.visits <:+ state.2.visits →
        acc.2.visits <:+ (Traced.round invoke ring slot state item).2.2.visits :=
    fun state item before => before.trans (round_visits invoke state item)
  exact Walk.walk_invariant keeps fuel node acc List.suffix_rfl

/-- The loop visits what is left of the slot. -/
theorem Ordered.loop (invoke : Behaviour Timer Cb World) (fuel : Nat)
    (acc : Int × Traced Timer Cb World) (front : List Timer) (ordered : Ordered acc.2)
    (list : acc.2.clock.slotList ring slot = front ++ rest) (enough : rest.length ≤ fuel)
    (good : ∀ visit ∈ (loopFrom invoke ring slot fuel rest.head? acc).2.visits, visit.Good) :
    ∃ during, Swept acc.2 rest (loopFrom invoke ring slot fuel rest.head? acc).2 during := by
  induction fuel generalizing acc front rest with
  | zero =>
      obtain rfl := List.eq_nil_of_length_eq_zero (Nat.le_zero.mp enough)
      exact ⟨[], ordered, rfl, rfl, rfl, nofun, rfl⟩
  | succ fuel ih =>
      cases rest with
      | nil => exact ⟨[], ordered, rfl, rfl, rfl, nofun, rfl⟩
      | cons timer rest =>
          have member : timer ∈ acc.2.clock.slotList ring slot := by
            rw [list]
            exact List.mem_append_right _ (List.mem_cons_self ..)
          have next : Walk.next (acc.2.clock.slotList ring slot) timer = rest.head? := by
            rw [list, Walk.next_append_cons (ordered.notMem_rest list).1]
          have unfolded : loopFrom invoke ring slot (fuel + 1) (timer :: rest).head? acc =
              loopFrom invoke ring slot fuel rest.head?
                (Traced.visit invoke acc timer rest.head?) := by
            simp only [loopFrom, List.head?_cons, Walk.walk, Traced.round, member, ↓reduceIte, next]
          rw [unfolded] at good ⊢
          have later := loopFrom_visits invoke ring slot fuel rest.head?
            (Traced.visit invoke acc timer rest.head?)
          obtain ⟨rest', during, visited⟩ := ordered.visit invoke list
            fun visit seen => good visit (later.subset seen)
          generalize Traced.visit invoke acc timer rest.head? = acc' at visited good ⊢
          obtain ⟨front', list'⟩ := visited.list
          rw [← visited.head] at good ⊢
          have fewer : rest'.length ≤ fuel := by
            have shorter := visited.shorter
            rw [List.length_cons] at enough
            omega
          obtain ⟨during', swept⟩ := ih acc' front' visited.ordered list' fewer good
          refine ⟨during' ++ during, {
            ordered := swept.ordered
            ticks := swept.ticks.trans visited.ticks
            current := swept.current.trans visited.current
            events := ?_
            due := ?_
            sweeps := swept.sweeps.trans visited.sweeps }⟩
          · rw [swept.events, visited.events, List.append_assoc]
          · intro other listed timeout
            rcases List.mem_cons.mp listed with rfl | behind
            · exact .inl (List.mem_append_right _ (visited.due timeout))
            · rcases visited.kept other behind with removed | ⟨still, same⟩
              · exact .inr (List.mem_append_right _ removed)
              · have left : tmLeft acc'.2.clock other = 0 := by
                  rw [← timeout]
                  simp only [tmLeft, same, visited.ticks]
                exact (swept.due other still left).imp (List.mem_append_left _)
                  (List.mem_append_left _)

/-- Every timer that was due in the slot fired or was removed. -/
def Sweeping.Complete (sweep : Sweeping Timer) : Prop :=
  ∀ timer ∈ sweep.due, .fired timer ∈ sweep.during ∨ .removed timer ∈ sweep.during

/-- The wheel is in order, and every slot that was run was run to its end. -/
structure Sound (r : Traced Timer Cb World) : Prop where
  ordered : Ordered r
  sweeps : ∀ sweep ∈ r.sweeps, sweep.Complete

/-- All callbacks that ran kept to the rules. -/
def Traced.Good (r : Traced Timer Cb World) : Prop := ∀ visit ∈ r.visits, visit.Good

/-- A part of a run: it takes nothing off the record, and keeps the wheel in order if the
callbacks keep to the rules. -/
structure Keeps (r r' : Traced Timer Cb World) : Prop where
  visits : r.visits <:+ r'.visits
  sound : r'.Good → Sound r → Sound r'

theorem Keeps.refl (r : Traced Timer Cb World) : Keeps r r := ⟨List.suffix_rfl, fun _ => id⟩

theorem Keeps.trans {r'' : Traced Timer Cb World} (first : Keeps r r') (second : Keeps r' r'') :
    Keeps r r'' where
  visits := first.visits.trans second.visits
  sound good sound := second.sound good
    (first.sound (fun visit seen => good visit (second.visits.subset seen)) sound)

/-- Where only the clock changes, and not its timers. -/
theorem Keeps.of_clock (lists : s.slotList = r.clock.slotList) (node : s.node = r.clock.node) :
    Keeps r { r with clock := s } where
  visits := List.suffix_rfl
  sound _ sound := by
    refine ⟨⟨?_, ?_, sound.ordered.obeys, sound.ordered.whole, sound.ordered.seen⟩, sound.sweeps⟩
    · refine sound.ordered.linked.congr lists ?_ ?_ ?_ <;> simp only [node, implies_true]
    · rw [node]
      exact sound.ordered.silent

/-- `tm_ring_trigger`. -/
theorem keeps_ringTrigger (invoke : Behaviour Timer Cb World) (r : Traced Timer Cb World)
    (ring : Nat) : Keeps r (r.ringTrigger invoke ring).2 where
  visits := loopFrom_visits invoke ring (r.clock.current ring) _ _ (0, r)
  sound good sound := by
    obtain ⟨during, swept⟩ := Ordered.loop invoke _ (0, r) [] sound.ordered rfl (le_refl _) good
    have during_eq : (r.ringTrigger invoke ring).2.events.take
        ((r.ringTrigger invoke ring).2.events.length - r.events.length) = during := by
      have events : (r.ringTrigger invoke ring).2.events = during ++ r.events := swept.events
      rw [events, List.length_append, Nat.add_sub_cancel, List.take_left' rfl]
    refine ⟨⟨swept.ordered.linked, swept.ordered.silent, swept.ordered.obeys, swept.ordered.whole,
      swept.ordered.seen⟩, List.forall_mem_cons.mpr ⟨?_, ?_⟩⟩
    · intro timer listed
      obtain ⟨member, timeout⟩ := List.mem_filter.mp listed
      have complete := swept.due timer member (of_decide_eq_true timeout)
      rw [← during_eq] at complete
      exact complete
    · intro sweep listed
      have earlier : sweep ∈ r.sweeps := by
        rw [← swept.sweeps]
        exact listed
      exact sound.sweeps sweep earlier

/-- `tm_ring_trigger` of a ring that was advanced. -/
theorem keeps_advanced (invoke : Behaviour Timer Cb World) (lists : s.slotList = r.clock.slotList)
    (node : s.node = r.clock.node) (ring : Nat) :
    Keeps r ({ r with clock := s }.ringTrigger invoke ring).2 :=
  (Keeps.of_clock lists node).trans (keeps_ringTrigger invoke _ ring)

/-- `tm_trigger`. -/
theorem keeps_trigger (invoke : Behaviour Timer Cb World) (above : Nat)
    (r : Traced Timer Cb World) : Keeps r (Traced.trigger invoke above r).2 := by
  induction above generalizing r with
  | zero =>
      unfold Traced.trigger
      dsimp only
      split
      · refine keeps_advanced invoke ?_ ?_ _ <;> rfl
      · refine keeps_advanced invoke ?_ ?_ _ <;> rfl
  | succ above ih =>
      unfold Traced.trigger
      dsimp only
      split
      · refine Keeps.trans ?_ (ih _)
        refine keeps_advanced invoke ?_ ?_ _ <;> rfl
      · refine keeps_advanced invoke ?_ ?_ _ <;> rfl

/-- The loop of `os_tm_trigger`. -/
theorem keeps_ticks (invoke : Behaviour Timer Cb World) (times : Nat) (ret count : Int)
    (r : Traced Timer Cb World) : Keeps r (Traced.ticks invoke times ret count r).2 := by
  induction times generalizing ret count r with
  | zero => exact Keeps.refl r
  | succ times ih =>
      have tick : Keeps r (r.tick invoke).2 := by
        refine Keeps.trans ?_ (keeps_trigger invoke tmRingmax _)
        exact Keeps.of_clock rfl rfl
      unfold Traced.ticks
      dsimp only
      split
      · exact tick.trans (ih _ _ _)
      · exact tick.trans (ih _ _ _)

/-- The calls the program may make: insertions of timers that are not pending, and any others. -/
def Op.Permitted (s : State Timer Cb World) : Op Timer Cb → Prop
  | .insert timer after _ _ => (s.node timer).pending = false ∧ 1 ≤ after ∧ after < 2 ^ 31
  | _ => True

/-- `os_tm_change` on a wheel in order. -/
theorem Ordered.change (ordered : Ordered r) (timer : Timer) (after : Nat) :
    Ordered { r with clock := (osTmChange r.clock (some timer) after).2 } := by
  unfold osTmChange
  dsimp only
  split
  · rename_i pending
    have idle : ((tmRemove r.clock timer).node timer).pending = false := by rw [tmRemove_node_self]
    have filed : Linked (tmInsert { tmRemove r.clock timer with
        node := Function.update (tmRemove r.clock timer).node timer
          { (tmRemove r.clock timer).node timer with
            expires := changedExpires ((tmRemove r.clock timer).node timer).expires
              (tmLeft r.clock timer) after } } timer) := by
      refine tmInsert_linked ((tmRemove_linked ordered.linked).setNode idle idle) ?_
      simp only [Function.update_self, idle]
    refine ⟨filed, ?_, ordered.obeys, ordered.whole, ordered.seen⟩
    intro other silenced
    have quiet := ordered.silent other silenced
    have different : other ≠ timer := by
      rintro rfl
      rw [quiet] at pending
      exact Bool.false_ne_true pending
    refine (congrArg TmNode.pending ((tmInsert_node_of_ne different).trans ?_)).trans quiet
    exact (Function.update_of_ne different ..).trans (tmRemove_node_of_ne different)
  · exact ordered

/-- One call of the program. -/
theorem keeps_step (invoke : Behaviour Timer Cb World) {op : Op Timer Cb}
    (permitted : op.Permitted r.clock) : Keeps r (r.step invoke op) := by
  cases op with
  | insert timer after cb cycle =>
      exact ⟨List.suffix_rfl, fun _ sound => ⟨sound.ordered.call permitted, sound.sweeps⟩⟩
  | remove timer =>
      exact ⟨List.suffix_rfl, fun _ sound => ⟨sound.ordered.call trivial, sound.sweeps⟩⟩
  | change timer after =>
      exact ⟨List.suffix_rfl, fun _ sound => ⟨sound.ordered.change timer after, sound.sweeps⟩⟩
  | trigger times => exact keeps_ticks invoke times 0 0 r

/-- A run of calls of the program. -/
theorem keeps_run (invoke : Behaviour Timer Cb World) (ops : List (Op Timer Cb))
    (permitted : Guarded (Traced.step invoke) (fun r op => op.Permitted r.clock) r ops) :
    Keeps r (run (Traced.step invoke) r ops) := by
  induction ops generalizing r with
  | nil => exact Keeps.refl r
  | cons op ops ih => exact (keeps_step invoke permitted.1).trans (ih permitted.2)

/-- In every run whose callbacks keep to the rules, nothing is left undefined, a pending timer is
on the list its node records and on no other, also when a callback is called, no timer fires
between its removal and an insertion, and every timer that was due in a slot that was run
fired in that run or was removed. -/
theorem callbacks_sound (invoke : Behaviour Timer Cb World) (world : World)
    (ops : List (Op Timer Cb))
    (permitted : Guarded (Traced.step invoke) (fun r op => op.Permitted r.clock)
      { clock := init world } ops)
    (good : (run (Traced.step invoke) { clock := init world } ops).Good) :
    (run (Traced.step invoke) { clock := init world } ops).broken = false ∧
      Linked (run (Traced.step invoke) { clock := init world } ops).clock ∧
      (∀ visit ∈ (run (Traced.step invoke) { clock := init world } ops).visits,
        Linked visit.before) ∧
      NoLateFiring (run (Traced.step invoke) { clock := init world } ops).events ∧
      ∀ sweep ∈ (run (Traced.step invoke) { clock := init world } ops).sweeps,
        sweep.Complete := by
  have start : Sound ({ clock := init world } : Traced Timer Cb World) :=
    ⟨⟨linked_init world, nofun, trivial, rfl, nofun⟩, nofun⟩
  obtain ⟨ordered, sweeps⟩ := (keeps_run invoke ops permitted).sound good start
  exact ⟨ordered.whole, ordered.linked, ordered.seen, ordered.obeys.noLateFiring, sweeps⟩

/-- A timer whose callback arms it again, not repeating. -/
theorem callbacks_sound_rearmed :
    (run (Traced.step fun (_ : Unit) (timer : Bool) _ => ([.insert timer 5 () false], 0, ()))
        { clock := init () } [.insert true 1 () false, .trigger 1]).broken = false ∧
      Linked (run (Traced.step fun (_ : Unit) (timer : Bool) _ =>
        ([.insert timer 5 () false], 0, ()))
        { clock := init () } [.insert true 1 () false, .trigger 1]).clock := by
  have visits : ∃ visit, (run (Traced.step fun (_ : Unit) (timer : Bool) _ =>
        ([.insert timer 5 () false], 0, ()))
        { clock := init () } [.insert true 1 () false, .trigger 1]).visits = [visit] ∧
      visit.next = none ∧ visit.calls = [.insert true 5 () false] ∧
      (visit.before.node true).pending = false ∧
      ((visit.calls.foldl perform visit.before).node visit.timer).cycle = false :=
    ⟨_, rfl, rfl, rfl, rfl, rfl⟩
  obtain ⟨only, all, next, calls, idle, single⟩ := visits
  obtain ⟨whole, linked, -⟩ := callbacks_sound
    (fun (_ : Unit) (timer : Bool) _ => ([.insert timer 5 () false], 0, ())) ()
    [.insert true 1 () false, .trigger 1] ⟨⟨rfl, by decide, by decide⟩, trivial, trivial⟩ (by
      intro visit listed
      rw [all, List.mem_singleton] at listed
      subst visit
      refine ⟨?_, ?_, ?_⟩
      · rw [calls]
        exact ⟨⟨idle, by decide, by decide⟩, trivial⟩
      · rw [next]
        nofun
      · rw [single]
        nofun)
  exact ⟨whole, linked⟩

/-- A repeating timer whose callback removes it: it fires at the next tick all the same. -/
theorem callback_fires_after_remove :
    ¬ NoLateFiring (run (Traced.step fun (_ : Unit) (timer : Unit) _ => ([.remove timer], 0, ()))
      { clock := init () } [.insert () 1 () true, .trigger 2]).events := by
  have events : (run (Traced.step fun (_ : Unit) (timer : Unit) _ => ([.remove timer], 0, ()))
      { clock := init () } [.insert () 1 () true, .trigger 2]).events =
      [.removed (), .fired (), .removed (), .fired (), .inserted ()] := rfl
  rw [events]
  intro noLate
  have inserted := noLate [.removed ()] [] [.fired (), .inserted ()] () rfl
  cases inserted

end Trunk.Timer
