import Mathlib.Algebra.Group.Nat.Defs
import Mathlib.Logic.Function.Basic
import Mathlib.Data.Nat.Bits
import Trunk.Utils.Errno

/-! # The timer wheel

The model of `timer.c`: the static `CLOCK`, the timer nodes its callers own, and
every operation on them. With 4-byte pointers there are four rings of 256 slots.
Timers are identified by the address of their node, an arbitrary type. A slot's
list is the sequence of nodes from `head->next` on, so `list_add` is a cons, and
`list_del` unlinks a node from whatever list it is on.

Callbacks run through `invoke`. They act on a `World` of their own and cannot reach
the clock: this is the case of callbacks that do not call the timer API. The
`log` field records every callback run with the tick it ran at, newest first; no
operation reads it.
-/

namespace Trunk.Timer

/-- `TM_BIT`. -/
def tmBit : Nat := 8

/-- `TM_MASK`. -/
def tmMask : Nat := 2 ^ tmBit - 1

/-- `TM_RING`, with `sizeof(void *) == 4`. -/
def tmRing : Nat := 4 * 8 / tmBit

/-- `TM_RINGMAX`. -/
def tmRingmax : Nat := tmRing - 1

/-- `struct tm_node`, with the two bits of `flags` as booleans. Its list node is
represented by the slot lists of the clock. -/
structure TmNode (Cb : Type) where
  cb : Option Cb := none
  pending : Bool := false
  cycle : Bool := false
  ringIdx : Nat := 0
  ringSlot : Nat := 0
  expires : Nat := 0
  create : Nat := 0

/-- The static `CLOCK`, the nodes, the callbacks' world and the log of callback
runs. The fields of `struct tm_ring` are functions of the ring index. -/
structure State (Timer Cb World : Type) where
  ticks : Nat
  triggeredError : Nat
  triggeredOk : Nat
  inserted : Nat
  removed : Nat
  slotList : Nat → Nat → List Timer
  slotCount : Nat → Nat → Nat
  current : Nat → Nat
  ringCount : Nat → Nat
  count : Nat
  node : Timer → TmNode Cb
  world : World
  log : List (Nat × Timer)

variable {Timer Cb World : Type}

/-- The zero-initialised clock after `__init`, with no node in use. -/
def init (world : World) : State Timer Cb World where
  ticks := 0
  triggeredError := 0
  triggeredOk := 0
  inserted := 0
  removed := 0
  slotList := fun _ _ => []
  slotCount := fun _ _ => 0
  current := fun _ => 0
  ringCount := fun _ => 0
  count := 0
  node := fun _ => {}
  world := world
  log := []

/-- `tm_left`, in the source's 64-bit and 32-bit arithmetic. -/
def tmLeft (s : State Timer Cb World) (timer : Timer) : Nat :=
  let timeout := ((s.node timer).create + (s.node timer).expires) % 2 ^ 64
  if s.ticks < timeout then (timeout - s.ticks) % 2 ^ 32 else 0

/-- The search loop of `tm_find_ring`, from ring `idx` down: the ring it stops at
and the offset it stops with. -/
def tmFindOffset (left : Nat) : Nat → Nat × Nat
  | 0 => (0, left)
  | idx + 1 =>
      let offset :=
        ((left <<< (tmBit * (tmRingmax - (idx + 1)))) % 2 ^ 32) >>> (tmBit * tmRingmax)
      if offset ≠ 0 then (idx + 1, offset) else tmFindOffset left idx

/-- `tm_find_ring`: the ring index and the slot of a node. -/
def tmFindRing (s : State Timer Cb World) (timer : Timer) : Nat × Nat :=
  let found := tmFindOffset (tmLeft s timer) tmRingmax
  (found.1, (s.current found.1 + found.2) &&& tmMask)

/-- Replace one entry of a table with two indices. -/
def setAt {α : Type} (table : Nat → Nat → α) (ring slot : Nat) (value : α) : Nat → Nat → α :=
  Function.update table ring (Function.update (table ring) slot value)

theorem setAt_apply {α : Type} (table : Nat → Nat → α) (ring slot : Nat) (value : α)
    (ring' slot' : Nat) :
    setAt table ring slot value ring' slot' =
      if ring' = ring ∧ slot' = slot then value else table ring' slot' := by
  unfold setAt
  by_cases sameRing : ring' = ring
  · subst ring'
    by_cases sameSlot : slot' = slot
    · subst slot'
      simp only [Function.update_self, and_self, ↓reduceIte]
    · simp only [Function.update_self, Function.update_of_ne sameSlot, sameSlot, and_false,
        ↓reduceIte]
  · simp only [Function.update_of_ne sameRing, sameRing, false_and, ↓reduceIte]

variable [DecidableEq Timer]

/-- `tm_insert`. -/
def tmInsert (s : State Timer Cb World) (timer : Timer) : State Timer Cb World :=
  let ring := (tmFindRing s timer).1
  let slot := (tmFindRing s timer).2
  { s with
    slotList := setAt s.slotList ring slot (timer :: s.slotList ring slot)
    slotCount := setAt s.slotCount ring slot (s.slotCount ring slot + 1)
    ringCount := Function.update s.ringCount ring (s.ringCount ring + 1)
    count := s.count + 1
    node := Function.update s.node timer
      { s.node timer with ringIdx := ring, ringSlot := slot, pending := true } }

/-- `tm_remove`. -/
def tmRemove (s : State Timer Cb World) (timer : Timer) : State Timer Cb World :=
  let ring := (s.node timer).ringIdx
  let slot := (s.node timer).ringSlot
  { s with
    slotList := fun ring slot => (s.slotList ring slot).erase timer
    slotCount := setAt s.slotCount ring slot (s.slotCount ring slot - 1)
    ringCount := Function.update s.ringCount ring (s.ringCount ring - 1)
    count := s.count - 1
    node := Function.update s.node timer { s.node timer with pending := false } }

/-- The call `(*node->cb)(node)` and the accounting of its result. -/
def tmCall (invoke : Cb → Timer → World → Int × World) (s : State Timer Cb World)
    (timer : Timer) : Int × State Timer Cb World :=
  let answer := (s.node timer).cb.elim (0, s.world) fun cb => invoke cb timer s.world
  let s := { s with world := answer.2, log := (s.ticks, timer) :: s.log }
  if answer.1 = 0 then (1, { s with triggeredOk := s.triggeredOk + 1 })
  else (0, { s with triggeredError := s.triggeredError + 1 })

/-- `node->create = CLOCK.ticks`. -/
def resetCreate (s : State Timer Cb World) (timer : Timer) : State Timer Cb World :=
  { s with node := Function.update s.node timer { s.node timer with create := s.ticks } }

/-- The loop body of `tm_ring_trigger`, over the success count and the state. -/
def tmVisit (invoke : Cb → Timer → World → Int × World)
    (acc : Int × State Timer Cb World) (timer : Timer) : Int × State Timer Cb World :=
  let timeout := tmLeft acc.2 timer = 0
  let s := tmRemove acc.2 timer
  if timeout then
    let called := tmCall invoke s timer
    if (called.2.node timer).cycle then
      (acc.1 + called.1, tmInsert (resetCreate called.2 timer) timer)
    else (acc.1 + called.1, called.2)
  else (acc.1, tmInsert s timer)

/-- `tm_ring_trigger`. The traversal reads each node's successor before the body
runs, and the body only moves the node it visits, to the front of a list: the
nodes visited are those the slot held on entry. -/
def tmRingTrigger (invoke : Cb → Timer → World → Int × World) (s : State Timer Cb World)
    (ring : Nat) : Int × State Timer Cb World :=
  (s.slotList ring (s.current ring)).foldl (tmVisit invoke) (0, s)

/-- `tm_trigger`: advance a ring, run its slot, carry into the next ring. -/
def tmTrigger (invoke : Cb → Timer → World → Int × World) (s : State Timer Cb World)
    (ring : Nat) : Int × State Timer Cb World :=
  let s := { s with
    current := Function.update s.current ring ((s.current ring + 1) &&& tmMask) }
  let here := tmRingTrigger invoke s ring
  if here.2.current ring = 0 ∧ ring < tmRingmax then
    let carry := tmTrigger invoke here.2 (ring + 1)
    (here.1 + carry.1, carry.2)
  else here
termination_by tmRingmax - ring

/-- One round of the loop of `os_tm_trigger`. -/
def tick (invoke : Cb → Timer → World → Int × World) (s : State Timer Cb World) :
    Int × State Timer Cb World :=
  tmTrigger invoke { s with ticks := (s.ticks + 1) % 2 ^ 64 } 0

/-- The loop of `os_tm_trigger`, over the first error, the success count and the
state. -/
def osTmTriggerLoop (invoke : Cb → Timer → World → Int × World) :
    Nat → Int → Int → State Timer Cb World → Int × State Timer Cb World
  | 0, ret, count, s => (if ret ≠ 0 then ret else count, s)
  | times + 1, ret, count, s =>
      let round := tick invoke s
      if round.1 < 0 ∧ ret = 0 then osTmTriggerLoop invoke times round.1 count round.2
      else osTmTriggerLoop invoke times ret (count + round.1) round.2

/-- `os_tm_trigger`. -/
def osTmTrigger (invoke : Cb → Timer → World → Int × World) (s : State Timer Cb World)
    (times : Nat) : Int × State Timer Cb World :=
  osTmTriggerLoop invoke times 0 0 s

/-- `os_tm_insert`. A `NULL` argument is `none`. -/
def osTmInsert (s : State Timer Cb World) (timer : Option Timer) (after : Int) (cb : Option Cb)
    (cycle : Bool) : Ret × State Timer Cb World :=
  match timer with
  | none => (.assert (-EKEYNULL), s)
  | some timer =>
      if cb.isNone then (.assert (-EINVAL1), s)
      else if after ≤ 0 then (.assert (-EINVAL2), s)
      else
        let s := { s with
          node := Function.update s.node timer { s.node timer with
            create := s.ticks
            expires := after.toNat % 2 ^ 32
            pending := false
            cycle := cycle
            cb := cb } }
        let s := tmInsert s timer
        (.code 0, { s with inserted := s.inserted + 1 })

/-- `os_tm_remove`. -/
def osTmRemove (s : State Timer Cb World) (timer : Option Timer) :
    Ret × State Timer Cb World :=
  match timer with
  | none => (.assert (-EKEYNULL), s)
  | some timer =>
      if (s.node timer).pending then
        let s := tmRemove s timer
        (.code 0, { s with
          removed := s.removed + 1
          node := Function.update s.node timer {} })
      else (.code (-ENOEXIST), s)

/-- The new `expires` of `os_tm_change`, in 32-bit arithmetic. -/
def changedExpires (expires left after : Nat) : Nat :=
  if left < after then (expires + (after - left)) % 2 ^ 32
  else (expires + (2 ^ 32 - (left - after) % 2 ^ 32)) % 2 ^ 32

/-- `os_tm_change`. -/
def osTmChange (s : State Timer Cb World) (timer : Option Timer) (after : Nat) :
    Ret × State Timer Cb World :=
  match timer with
  | none => (.assert (-EKEYNULL), s)
  | some timer =>
      if (s.node timer).pending then
        let left := tmLeft s timer
        let s := tmRemove s timer
        let s := { s with
          node := Function.update s.node timer { s.node timer with
            expires := changedExpires (s.node timer).expires left after } }
        (.code 0, tmInsert s timer)
      else (.code (-ENOEXIST), s)

/-- One call of the timer API. -/
inductive Op (Timer Cb : Type) where
  | insert (timer : Timer) (after : Nat) (cb : Cb) (cycle : Bool)
  | remove (timer : Timer)
  | change (timer : Timer) (after : Nat)
  | trigger (times : Nat)

/-- The state after one call. -/
def step (invoke : Cb → Timer → World → Int × World) (s : State Timer Cb World) :
    Op Timer Cb → State Timer Cb World
  | .insert timer after cb cycle => (osTmInsert s (some timer) after (some cb) cycle).2
  | .remove timer => (osTmRemove s (some timer)).2
  | .change timer after => (osTmChange s (some timer) after).2
  | .trigger times => (osTmTrigger invoke s times).2

/-- The calls a caller may make: insert on a timer that is not pending with a
positive `int` delay, change on a pending timer with a positive `uint32_t` delay
that keeps `expires` in 32 bits, remove on any timer, and any `uint32_t` number of
ticks. -/
def Op.Legal (s : State Timer Cb World) : Op Timer Cb → Prop
  | .insert timer after _ _ => (s.node timer).pending = false ∧ 1 ≤ after ∧ after < 2 ^ 31
  | .remove _ => True
  | .change timer after =>
      (s.node timer).pending = true ∧ 1 ≤ after ∧ after < 2 ^ 32 ∧
        s.ticks - (s.node timer).create + after < 2 ^ 32
  | .trigger times => times < 2 ^ 32

instance (s : State Timer Cb World) (op : Op Timer Cb) : Decidable (op.Legal s) :=
  match op with
  | .insert .. => inferInstanceAs (Decidable (_ ∧ _))
  | .remove .. => inferInstanceAs (Decidable True)
  | .change .. => inferInstanceAs (Decidable (_ ∧ _))
  | .trigger .. => inferInstanceAs (Decidable (_ < _))

end Trunk.Timer
