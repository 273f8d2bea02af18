import Trunk.Foundation.Run
import Trunk.Foundation.Walk
import Trunk.Timer.Placement

/-! # Callbacks that use the timer API

The model of `tm_ring_trigger` for callbacks that call `os_tm_insert` and `os_tm_remove`. The
loop goes along the slot with the next node saved before the callback runs, and the node that
fires is on no list meanwhile. `Trunk.Timer.Traced` is the clock with a record of what happened:
every call and every callback run, every visit with what the loop had saved, and for every run
of a slot the timers that were due in it.

A node that the loop goes on to although it left the slot has no link back to the list, and a
node that is linked twice breaks the lists. What the program does from there on is not
defined: the record is `broken`.
-/

namespace Trunk.Timer

variable {Timer Cb World : Type}

/-- A call that a callback makes. -/
inductive Call (Timer Cb : Type) where
  | insert (timer : Timer) (after : Nat) (cb : Cb) (cycle : Bool)
  | remove (timer : Timer)

/-- The timer of a call. -/
def Call.timer : Call Timer Cb → Timer
  | .insert timer .. => timer
  | .remove timer => timer

/-- What happens to a timer. -/
inductive Event (Timer : Type) where
  | inserted (timer : Timer)
  | removed (timer : Timer)
  | fired (timer : Timer)

/-- The event of a call. A call on a timer that is not pending counts as well. -/
def Call.event : Call Timer Cb → Event Timer
  | .insert timer .. => .inserted timer
  | .remove timer => .removed timer

/-- A run of a callback: its timer, the timer that the loop saved as the next one, the clock
when it was called, and the calls it made. -/
structure Visit (Timer Cb World : Type) where
  timer : Timer
  next : Option Timer
  before : State Timer Cb World
  calls : List (Call Timer Cb)

/-- A run of a slot: the timers that were due in it, and the events, the newest first. -/
structure Sweeping (Timer : Type) where
  due : List Timer
  during : List (Event Timer)

/-- The clock and the record of what happened, the newest first. -/
structure Traced (Timer Cb World : Type) where
  clock : State Timer Cb World
  broken : Bool := false
  events : List (Event Timer) := []
  visits : List (Visit Timer Cb World) := []
  sweeps : List (Sweeping Timer) := []

/-- What a callback does: the calls it makes, the value it returns, and its world. -/
abbrev Behaviour (Timer Cb World : Type) :=
  Cb → Timer → State Timer Cb World → List (Call Timer Cb) × Int × World

variable [DecidableEq Timer]

/-- One call on the clock. -/
def perform (s : State Timer Cb World) : Call Timer Cb → State Timer Cb World
  | .insert timer after cb cycle => (osTmInsert s (some timer) after (some cb) cycle).2
  | .remove timer => (osTmRemove s (some timer)).2

/-- One call, with its record. A timer that is pending is linked twice. -/
def Traced.call (r : Traced Timer Cb World) (call : Call Timer Cb) : Traced Timer Cb World :=
  { r with
    clock := perform r.clock call
    broken := r.broken || match call with
      | .insert timer .. => (r.clock.node timer).pending
      | .remove _ => false
    events := call.event :: r.events }

/-- `tm_insert` of the node that the loop is at. -/
def Traced.refile (r : Traced Timer Cb World) (timer : Timer) : Traced Timer Cb World :=
  { r with
    clock := tmInsert r.clock timer
    broken := r.broken || (r.clock.node timer).pending }

/-- The call `(*node->cb)(node)` and the accounting of its result. -/
def Traced.fire (invoke : Behaviour Timer Cb World) (r : Traced Timer Cb World) (timer : Timer)
    (next : Option Timer) : Int × Traced Timer Cb World :=
  let answer := (r.clock.node timer).cb.elim ([], 0, r.clock.world) fun cb =>
    invoke cb timer r.clock
  let called := answer.1.foldl Traced.call { r with
    events := .fired timer :: r.events
    visits := ⟨timer, next, r.clock, answer.1⟩ :: r.visits }
  let s := { called.clock with
    world := answer.2.2
    log := (called.clock.ticks, timer) :: called.clock.log }
  if answer.2.1 = 0 then (1, { called with clock := { s with triggeredOk := s.triggeredOk + 1 } })
  else (0, { called with clock := { s with triggeredError := s.triggeredError + 1 } })

/-- The loop body of `tm_ring_trigger`, over the success count. -/
def Traced.visit (invoke : Behaviour Timer Cb World) (acc : Int × Traced Timer Cb World)
    (timer : Timer) (next : Option Timer) : Int × Traced Timer Cb World :=
  let timeout := tmLeft acc.2.clock timer = 0
  let r := { acc.2 with clock := tmRemove acc.2.clock timer }
  if timeout then
    let fired := r.fire invoke timer next
    if (fired.2.clock.node timer).cycle then
      (acc.1 + fired.1, { fired.2 with clock := resetCreate fired.2.clock timer }.refile timer)
    else (acc.1 + fired.1, fired.2)
  else (acc.1, r.refile timer)

/-- A round of the loop: it ends where its node is not in the slot. -/
def Traced.round (invoke : Behaviour Timer Cb World) (ring slot : Nat)
    (acc : Int × Traced Timer Cb World) (timer : Timer) :
    Option Unit × (Int × Traced Timer Cb World) :=
  let list := acc.2.clock.slotList ring slot
  if timer ∈ list then (none, Traced.visit invoke acc timer (Walk.next list timer))
  else (some (), (acc.1, { acc.2 with broken := true }))

/-- The timers that are due in a slot. -/
def State.due (s : State Timer Cb World) (ring slot : Nat) : List Timer :=
  (s.slotList ring slot).filter fun timer => tmLeft s timer = 0

/-- `tm_ring_trigger`. -/
def Traced.ringTrigger (invoke : Behaviour Timer Cb World) (r : Traced Timer Cb World)
    (ring : Nat) : Int × Traced Timer Cb World :=
  let slot := r.clock.current ring
  let ran := (Walk.forEachSafe (fun acc => acc.2.clock.slotList ring slot)
    (Traced.round invoke ring slot) (0, r)).2
  (ran.1, { ran.2 with sweeps :=
    ⟨r.clock.due ring slot, ran.2.events.take (ran.2.events.length - r.events.length)⟩ ::
      ran.2.sweeps })

/-- `tm_trigger` of the ring that has so many rings above it. -/
def Traced.trigger (invoke : Behaviour Timer Cb World) :
    Nat → Traced Timer Cb World → Int × Traced Timer Cb World
  | above, r =>
      let ring := tmRingmax - above
      let advanced := { r with clock := { r.clock with
        current := Function.update r.clock.current ring ((r.clock.current ring + 1) &&& tmMask) } }
      let here := advanced.ringTrigger invoke ring
      if here.2.clock.current ring = 0 then
        match above with
        | 0 => here
        | above + 1 =>
            let carry := Traced.trigger invoke above here.2
            (here.1 + carry.1, carry.2)
      else here

/-- One round of the loop of `os_tm_trigger`. -/
def Traced.tick (invoke : Behaviour Timer Cb World) (r : Traced Timer Cb World) :
    Int × Traced Timer Cb World :=
  Traced.trigger invoke tmRingmax
    { r with clock := { r.clock with ticks := (r.clock.ticks + 1) % 2 ^ 64 } }

/-- The loop of `os_tm_trigger`. -/
def Traced.ticks (invoke : Behaviour Timer Cb World) :
    Nat → Int → Int → Traced Timer Cb World → Int × Traced Timer Cb World
  | 0, ret, count, r => (if ret ≠ 0 then ret else count, r)
  | times + 1, ret, count, r =>
      let round := r.tick invoke
      if round.1 < 0 ∧ ret = 0 then Traced.ticks invoke times round.1 count round.2
      else Traced.ticks invoke times ret (count + round.1) round.2

/-- The state after one call of the program. -/
def Traced.step (invoke : Behaviour Timer Cb World) (r : Traced Timer Cb World) :
    Op Timer Cb → Traced Timer Cb World
  | .insert timer after cb cycle => r.call (.insert timer after cb cycle)
  | .remove timer => r.call (.remove timer)
  | .change timer after => { r with clock := (osTmChange r.clock (some timer) after).2 }
  | .trigger times => (Traced.ticks invoke times 0 0 r).2

end Trunk.Timer
