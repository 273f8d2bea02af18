import Mathlib.Data.Set.Basic
import Trunk.Timer.Clock

/-! # The naive scheduler

What the timer wheel is for: a table of armed timers, each with the tick it was
armed at, its delay and whether it repeats. At every tick the timers whose
deadline is that tick run, all of them and no other; one that repeats is armed
again from that tick with the same delay, and one that does not is disarmed. The
tick count is unbounded.
-/

namespace Trunk.Timer

/-- What an armed timer was armed with. -/
structure Armed where
  create : Nat
  expires : Nat
  cycle : Bool

/-- The tick an armed timer is due at. -/
def Armed.deadline (armed : Armed) : Nat := armed.create + armed.expires

/-- What is left of an armed timer after the tick `now`. -/
def Armed.expire (now : Nat) (armed : Armed) : Option Armed :=
  if armed.deadline = now then
    if armed.cycle then some { armed with create := now } else none
  else some armed

/-- The naive scheduler: the tick count, the armed timers, and the timers that ran
at each tick so far. -/
structure Naive (Timer : Type) where
  now : Nat
  armed : Timer → Option Armed
  fired : Nat → Set Timer

namespace Naive

variable {Timer Cb World : Type}

def init : Naive Timer where
  now := 0
  armed := fun _ => none
  fired := fun _ => ∅

/-- The timers due at the next tick. -/
def due (n : Naive Timer) : Set Timer :=
  { timer | ∃ armed, n.armed timer = some armed ∧ armed.deadline = n.now + 1 }

def tick (n : Naive Timer) : Naive Timer where
  now := n.now + 1
  armed := fun timer => (n.armed timer).bind (Armed.expire (n.now + 1))
  fired := Function.update n.fired (n.now + 1) n.due

variable [DecidableEq Timer]

/-- Set or clear one timer's entry. -/
def arm (n : Naive Timer) (timer : Timer) (entry : Option Armed) : Naive Timer :=
  { n with armed := Function.update n.armed timer entry }

def step (n : Naive Timer) : Op Timer Cb → Naive Timer
  | .insert timer after _ cycle => n.arm timer (some ⟨n.now, after, cycle⟩)
  | .remove timer => n.arm timer none
  | .change timer after =>
      n.arm timer ((n.armed timer).map fun armed =>
        { armed with expires := n.now - armed.create + after })
  | .trigger times => tick^[times] n

end Naive

variable {Timer Cb World : Type}

/-- What a node says its timer is armed with; nothing when it is not pending. -/
def TmNode.view (node : TmNode Cb) : Option Armed :=
  if node.pending then some ⟨node.create, node.expires, node.cycle⟩ else none

/-- The wheel refines the naive scheduler: it counts the same ticks in 64 bits, the
same timers are pending with the same data, and each callback ran exactly at the
ticks it was due, once. -/
structure Refines (s : State Timer Cb World) (n : Naive Timer) : Prop where
  ticks : s.ticks = n.now % 2 ^ 64
  view : ∀ timer, (s.node timer).view = n.armed timer
  once : s.log.Nodup
  fired : ∀ tick timer, (tick, timer) ∈ s.log ↔ timer ∈ n.fired tick

end Trunk.Timer
