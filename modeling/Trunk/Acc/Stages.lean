import Trunk.Foundation.Run

/-! # The ignition module

The model of `check_acc.c`: the two stages that read the ignition line, the tasklet between
them, the shutdown, and the `ioctl` that sets the shutdown delay. A handler runs when its
timer expires or its tasklet is due, which is then pending no more. `history` records, newest
first, the readings and the notices; no handler reads it.

A notice raises `SIGIO` and, once a listener has made itself known (`msg_flag`), is sent to
it. The lamp and what is printed are left out.
-/

namespace Trunk.Acc

/-- `ACC_DELAY_TIMER`. -/
def accDelayTimer : Int := 60

/-- `acc_time`. -/
def accTime : Int := 1

/-- What the module read, and what it told: `acc off` with the value that `total_time1` had
then, `acc on` and `delay off`, each with whether it was sent. -/
inductive Happening where
  | stage1 (reading : Bool)
  | stage2 (reading : Bool)
  | accOff (totalTime1 : Int) (sent : Bool)
  | accOn (sent : Bool)
  | delayOff (sent : Bool)
  deriving DecidableEq, Repr

/-- The static data of the module, with what is pending. `acc_flag` and `msg_flag` are zero
or one. -/
structure State where
  gccTimer : Bool
  accTasklet : Bool
  accTimer : Bool
  sigTimer : Bool
  restarted : Bool
  /-- `add_timer` was called on a pending timer, which is a `BUG`. -/
  bug : Bool
  accSem : Nat
  accFlag : Bool
  accFlag1 : Nat
  totalTime : Int
  totalTime1 : Int
  msgFlag : Bool
  delayFlag : Nat
  history : List Happening
  deriving DecidableEq, Repr

/-- The module after `acc_init`, with or without a listener. -/
def accInit (msgFlag : Bool) : State where
  gccTimer := true
  accTasklet := false
  accTimer := false
  sigTimer := false
  restarted := false
  bug := false
  accSem := 1
  accFlag := false
  accFlag1 := 0
  totalTime := 0
  totalTime1 := accDelayTimer
  msgFlag := msgFlag
  delayFlag := 0
  history := []

/-- `add_timer(&gcc_timer)`. -/
def State.addGccTimer (s : State) : State := { s with gccTimer := true, bug := s.bug || s.gccTimer }

/-- `add_timer(&acc_timer)`. -/
def State.addAccTimer (s : State) : State := { s with accTimer := true, bug := s.bug || s.accTimer }

/-- `add_timer(&sig_timer)`. -/
def State.addSigTimer (s : State) : State := { s with sigTimer := true, bug := s.bug || s.sigTimer }

/-- A happening is recorded. -/
def State.note (s : State) (happening : Happening) : State :=
  { s with history := happening :: s.history }

/-- `sendnlmsg`, if there is a listener, and `kill_fasync`. -/
def State.tell (s : State) (notice : Bool → Happening) : State := s.note (notice s.msgFlag)

/-- `down_trylock(&acc_sem)`: zero if the semaphore was taken. -/
def downTrylock (s : State) : Nat × State :=
  if 0 < s.accSem then (0, { s with accSem := s.accSem - 1 }) else (1, s)

/-- `up(&acc_sem)`. -/
def up (s : State) : State := { s with accSem := s.accSem + 1 }

/-- `ap_shutdown`. -/
def apShutdown (s : State) : State :=
  let s := s.tell .delayOff
  let s := { s with delayFlag := s.delayFlag + 1, sigTimer := false }
  if s.delayFlag < 6 then s.addSigTimer else { s with restarted := true }

/-- `check_acc_stage2`, on a reading. -/
def checkAccStage2 (reading : Bool) (s : State) : State :=
  let s := s.note (.stage2 reading)
  let buttonFlag := !reading
  if buttonFlag then
    let s := { up s with accFlag := false }
    (s.tell .accOn).addGccTimer
  else if s.totalTime ≥ s.totalTime1 then
    let s := { up s with accFlag := false }
    let s := s.tell .delayOff
    { s with sigTimer := false }.addSigTimer
  else { s with totalTime := s.totalTime + accTime }.addAccTimer

/-- The first part of `check_acc_stage1`: the count of readings of one, and `button_flag`. -/
def countReading (reading : Bool) (s : State) : Bool × State :=
  if reading then
    if s.accFlag1 + 1 ≥ 3 then (true, { s with accFlag1 := 0 })
    else (false, { s with accFlag1 := s.accFlag1 + 1 })
  else (false, { s with accFlag1 := 0 })

/-- `check_acc_stage1`, on a reading. -/
def checkAccStage1 (reading : Bool) (s : State) : State :=
  let counted := countReading reading (s.note (.stage1 reading))
  if counted.1 then
    let locked := downTrylock counted.2
    if locked.1 = 0 then { locked.2 with totalTime := 0, accTasklet := true }
    else locked.2.addGccTimer
  else counted.2.addGccTimer

/-- `tasklet_action`. -/
def taskletAction (s : State) : State :=
  let s := { s with accFlag := true }
  let s := s.tell (.accOff s.totalTime1)
  let s := { s with accTimer := false, totalTime := s.totalTime + accTime }
  s.addAccTimer

/-- `SET_ACC_GPIO_TIMER` of `acc_ioctl`: `num` is an `unsigned int`, `total_time1` an `int`. -/
def setAccGpioTimer (num : UInt32) (s : State) : State :=
  if s.accFlag then s else { s with totalTime1 := num.toInt32.toInt }

/-- What may come next: a timer expires, with the reading that its handler makes, the tasklet
runs, the `ioctl` is made, or a listener makes itself known (`nl_data_ready`). -/
inductive Input where
  | gccTimer (reading : Bool)
  | accTasklet
  | accTimer (reading : Bool)
  | sigTimer
  | setTimer (num : UInt32)
  | listen
  deriving DecidableEq, Repr

/-- One step, if it can come. Nothing comes after the restart. -/
def step (s : State) : Input → Option State
  | .gccTimer reading =>
      if s.gccTimer && !s.restarted then some (checkAccStage1 reading { s with gccTimer := false })
      else none
  | .accTasklet =>
      if s.accTasklet && !s.restarted then some (taskletAction { s with accTasklet := false })
      else none
  | .accTimer reading =>
      if s.accTimer && !s.restarted then some (checkAccStage2 reading { s with accTimer := false })
      else none
  | .sigTimer =>
      if s.sigTimer && !s.restarted then some (apShutdown { s with sigTimer := false }) else none
  | .setTimer num => if s.restarted then none else some (setAccGpioTimer num s)
  | .listen => if s.restarted then none else some { s with msgFlag := true }

end Trunk.Acc
