import Mathlib.Data.List.Chain
import Mathlib.Order.Lattice
import Trunk.Acc.Stages

/-! # Safety of the ignition module

In every state that can be reached, exactly one of the timers and the tasklet is pending or
the system has restarted, the semaphore is taken exactly while the tasklet or the second
stage is pending, and every notice is one that the readings before it call for
(`Trunk.Acc.ignition_safe`). The invariant goes by what is pending (`Trunk.Acc.Phase`): each
phase knows what the newest happenings are.
-/

namespace Trunk.Acc

open Run

variable {s : State}

/-- `acc off` (true) and `acc on` (false), of those whose sending passes a test. -/
def ignitions (test : Bool → Bool) : List Happening → List Bool
  | [] => []
  | .accOff _ sent :: earlier =>
      if test sent then true :: ignitions test earlier else ignitions test earlier
  | .accOn sent :: earlier =>
      if test sent then false :: ignitions test earlier else ignitions test earlier
  | _ :: earlier => ignitions test earlier

/-- Every notice that was given. -/
def told : List Happening → List Bool := ignitions fun _ => true

/-- Every notice that was sent. -/
def sentNotices : List Happening → List Bool := ignitions id

/-- What a happening says of those before it. -/
def Explains : Happening → List Happening → Prop
  | .accOff _ _, earlier => ∃ rest, earlier = .stage1 true :: .stage1 true :: .stage1 true :: rest
  | .accOn _, earlier => ∃ rest, earlier = .stage2 false :: rest
  | .delayOff _, earlier => (∃ sent, .delayOff sent ∈ earlier) ∨
      ∃ totalTime1 sent rest, earlier =
        List.replicate (max 1 totalTime1).toNat (.stage2 true) ++ .accOff totalTime1 sent :: rest
  | _, _ => True

/-- Every happening of a history is explained by those before it. -/
def Explained : List Happening → Prop
  | [] => True
  | happening :: earlier => Explains happening earlier ∧ Explained earlier

theorem Explained.at {later earlier : List Happening} {happening : Happening}
    (explained : Explained (later ++ happening :: earlier)) : Explains happening earlier := by
  induction later with
  | nil => exact explained.1
  | cons first later ih => exact ih explained.2

/-- The notices of a history: explained, in turns, and sent from some notice on. -/
structure Recorded (s : State) : Prop where
  explained : Explained s.history
  turns : (told s.history).IsChain (· ≠ ·)
  sent : sentNotices s.history <+: told s.history
  unheard : s.msgFlag = false → sentNotices s.history = []
  noBug : s.bug = false

/-- What is pending: the timers, the tasklet, or nothing after the restart. -/
def State.pending (s : State) : List Bool :=
  [s.gccTimer, s.accTasklet, s.accTimer, s.sigTimer, s.restarted]

/-- What holds while one of the five is pending. -/
inductive Phase (s : State) : Prop
  | gcc (pending : s.pending = [true, false, false, false, false]) (sem : s.accSem = 1)
      (flag : s.accFlag = false) (few : s.accFlag1 ≤ 2)
      (readings : ∃ rest, s.history = List.replicate s.accFlag1 (.stage1 true) ++ rest)
      (turn : (told s.history).head? ≠ some true) (calm : s.delayFlag = 0)
  | tasklet (pending : s.pending = [false, true, false, false, false]) (sem : s.accSem = 0)
      (flag : s.accFlag = false) (start : s.totalTime = 0) (clear : s.accFlag1 = 0)
      (readings : ∃ rest, s.history = .stage1 true :: .stage1 true :: .stage1 true :: rest)
      (turn : (told s.history).head? ≠ some true) (calm : s.delayFlag = 0)
  | acc (pending : s.pending = [false, false, true, false, false]) (sem : s.accSem = 0)
      (flag : s.accFlag = true) (clear : s.accFlag1 = 0)
      (counted : ∃ (count : Nat) (sent : Bool) (rest : List Happening), s.totalTime = (count : Int) + 1 ∧
        (count = 0 ∨ (count : Int) < s.totalTime1) ∧
        s.history = List.replicate count (.stage2 true) ++ .accOff s.totalTime1 sent :: rest)
      (calm : s.delayFlag = 0)
  | sig (pending : s.pending = [false, false, false, true, false]) (sem : s.accSem = 1)
      (few : s.delayFlag ≤ 5) (off : ∃ sent, .delayOff sent ∈ s.history)
  | restarted (pending : s.pending = [false, false, false, false, true]) (sem : s.accSem = 1)

/-- Everything that is kept: the notices, and what goes with what is pending. -/
structure Inv (s : State) : Prop where
  recorded : Recorded s
  phase : Phase s

theorem inv_accInit (msgFlag : Bool) : Inv (accInit msgFlag) where
  recorded := ⟨trivial, List.isChain_nil, List.nil_prefix, fun _ => rfl, rfl⟩
  phase := .gcc rfl rfl rfl (Nat.zero_le 2) ⟨[], rfl⟩ nofun rfl

/-- A history in which nothing was told last but readings. -/
theorem told_replicate_stage2 (count : Nat) (earlier : List Happening) :
    told (List.replicate count (.stage2 true) ++ earlier) = told earlier := by
  induction count with
  | zero => rfl
  | succ count ih => exact ih

/-- A reading says nothing. -/
theorem Recorded.read (recorded : Recorded s) {happening : Happening}
    (reading : happening = .stage1 true ∨ happening = .stage1 false ∨
      happening = .stage2 true ∨ happening = .stage2 false) : Recorded (s.note happening) := by
  rcases reading with rfl | rfl | rfl | rfl
  all_goals
    exact ⟨⟨trivial, recorded.explained⟩, recorded.turns, recorded.sent, recorded.unheard,
      recorded.noBug⟩

/-- The notices of the ignition: one that is due and not the one told last. -/
theorem Recorded.tell (recorded : Recorded s) {notice : Bool → Happening} {off : Bool}
    (kind : ∀ sent earlier, told (notice sent :: earlier) = off :: told earlier ∧
      sentNotices (notice sent :: earlier) =
        if sent then off :: sentNotices earlier else sentNotices earlier)
    (explains : Explains (notice s.msgFlag) s.history)
    (turn : (told s.history).head? ≠ some off) : Recorded (s.tell notice) := by
  obtain ⟨toldNow, sentNow⟩ := kind s.msgFlag s.history
  refine ⟨⟨explains, recorded.explained⟩, ?_, ?_, ?_, recorded.noBug⟩
  · change (told (notice s.msgFlag :: s.history)).IsChain (· ≠ ·)
    rw [toldNow]
    refine List.isChain_cons.mpr ⟨?_, recorded.turns⟩
    intro last isLast same
    exact turn (same ▸ isLast)
  · change sentNotices (notice s.msgFlag :: s.history) <+: told (notice s.msgFlag :: s.history)
    rw [toldNow, sentNow]
    cases heard : s.msgFlag with
    | false =>
        rw [if_neg Bool.false_ne_true, recorded.unheard heard]
        exact List.nil_prefix
    | true =>
        rw [if_pos rfl]
        exact List.cons_prefix_cons.mpr ⟨rfl, recorded.sent⟩
  · intro silent
    have silentBefore : s.msgFlag = false := silent
    change sentNotices (notice s.msgFlag :: s.history) = []
    rw [sentNow, silentBefore, if_neg Bool.false_ne_true]
    exact recorded.unheard silentBefore

/-- `delay off` is no notice of the ignition. -/
theorem Recorded.delayOff (recorded : Recorded s)
    (explains : Explains (.delayOff s.msgFlag) s.history) : Recorded (s.tell .delayOff) :=
  ⟨⟨explains, recorded.explained⟩, recorded.turns, recorded.sent, recorded.unheard,
    recorded.noBug⟩

/-- What is recorded stays when other data changes. -/
theorem Recorded.congr {next : State} (recorded : Recorded s) (history : next.history = s.history)
    (msgFlag : next.msgFlag = s.msgFlag) (noBug : next.bug = false) : Recorded next := by
  refine ⟨?_, ?_, ?_, ?_, noBug⟩
  · rw [history]
    exact recorded.explained
  · rw [history]
    exact recorded.turns
  · rw [history]
    exact recorded.sent
  · rw [history, msgFlag]
    exact recorded.unheard

/-- The first stage, on a reading. -/
theorem inv_checkAccStage1 (inv : Inv s) (sem : s.accSem = 1) (flag : s.accFlag = false)
    (few : s.accFlag1 ≤ 2)
    (pending : s.pending = [true, false, false, false, false])
    (readings : ∃ rest, s.history = List.replicate s.accFlag1 (.stage1 true) ++ rest)
    (turn : (told s.history).head? ≠ some true) (calm : s.delayFlag = 0) (reading : Bool) :
    Inv (checkAccStage1 reading { s with gccTimer := false }) := by
  obtain ⟨rest, readings⟩ := readings
  simp only [State.pending, List.cons.injEq, and_true] at pending
  obtain ⟨gcc, tasklet, acc, sig, restarted⟩ := pending
  have noBug := inv.recorded.noBug
  cases reading with
  | false =>
      have recorded : Recorded (s.note (.stage1 false)) := inv.recorded.read (.inr (.inl rfl))
      refine ⟨recorded.congr rfl rfl ?_, .gcc ?_ sem flag (Nat.zero_le 2) ⟨_, rfl⟩ turn calm⟩
      · change (s.bug || false) = false
        rw [noBug, Bool.or_self]
      · change [true, s.accTasklet, s.accTimer, s.sigTimer, s.restarted] = _
        rw [tasklet, acc, sig, restarted]
  | true =>
      have recorded : Recorded (s.note (.stage1 true)) := inv.recorded.read (.inl rfl)
      by_cases third : s.accFlag1 + 1 ≥ 3
      · have two : s.accFlag1 = 2 := by omega
        rw [two] at readings
        have free : 0 < s.accSem := by omega
        have result : checkAccStage1 true { s with gccTimer := false } =
            { s.note (.stage1 true) with
              gccTimer := false
              accFlag1 := 0
              accSem := s.accSem - 1
              totalTime := 0
              accTasklet := true } := by
          simp only [checkAccStage1, countReading, State.note, third, ↓reduceIte, downTrylock, free]
        rw [result]
        refine ⟨recorded.congr rfl rfl noBug, .tasklet ?_ ?_ flag rfl rfl ⟨rest, ?_⟩ turn calm⟩
        · change [false, true, s.accTimer, s.sigTimer, s.restarted] = _
          rw [acc, sig, restarted]
        · change s.accSem - 1 = 0
          omega
        · change .stage1 true :: s.history = _
          rw [readings]
          rfl
      · have result : checkAccStage1 true { s with gccTimer := false } =
            { s.note (.stage1 true) with
              gccTimer := true
              accFlag1 := s.accFlag1 + 1
              bug := s.bug || false } := by
          simp only [checkAccStage1, countReading, State.note, third, ↓reduceIte,
            Bool.false_eq_true, State.addGccTimer]
        rw [result]
        refine ⟨recorded.congr rfl rfl ?_, .gcc ?_ sem flag (by simp only; omega) ⟨rest, ?_⟩ turn calm⟩
        · change (s.bug || false) = false
          rw [noBug, Bool.or_self]
        · change [true, s.accTasklet, s.accTimer, s.sigTimer, s.restarted] = _
          rw [tasklet, acc, sig, restarted]
        · change .stage1 true :: s.history = _
          rw [readings]
          rfl

/-- The tasklet. -/
theorem inv_taskletAction (inv : Inv s) (sem : s.accSem = 0)
    (pending : s.pending = [false, true, false, false, false]) (start : s.totalTime = 0)
    (clear : s.accFlag1 = 0)
    (readings : ∃ rest, s.history = .stage1 true :: .stage1 true :: .stage1 true :: rest)
    (turn : (told s.history).head? ≠ some true) (calm : s.delayFlag = 0) :
    Inv (taskletAction { s with accTasklet := false }) := by
  simp only [State.pending, List.cons.injEq, and_true] at pending
  obtain ⟨gcc, tasklet, acc, sig, restarted⟩ := pending
  have noBug := inv.recorded.noBug
  have recorded : Recorded (s.tell (.accOff s.totalTime1)) :=
    inv.recorded.tell (fun _ _ => ⟨rfl, rfl⟩) readings turn
  refine ⟨recorded.congr rfl rfl ?_, .acc ?_ sem rfl clear ⟨0, s.msgFlag, s.history, ?_, .inl rfl, rfl⟩ calm⟩
  · change (s.bug || false) = false
    rw [noBug, Bool.or_self]
  · change [s.gccTimer, false, true, s.sigTimer, s.restarted] = _
    rw [gcc, sig, restarted]
  · change s.totalTime + accTime = _
    rw [start]
    rfl

/-- The second stage, on a reading. -/
theorem inv_checkAccStage2 (inv : Inv s) (sem : s.accSem = 0)
    (pending : s.pending = [false, false, true, false, false]) (clear : s.accFlag1 = 0)
    (flag : s.accFlag = true)
    (counted : ∃ (count : Nat) (sent : Bool) (rest : List Happening),
      s.totalTime = (count : Int) + 1 ∧ (count = 0 ∨ (count : Int) < s.totalTime1) ∧
        s.history = List.replicate count (.stage2 true) ++ .accOff s.totalTime1 sent :: rest)
    (calm : s.delayFlag = 0) (reading : Bool) :
    Inv (checkAccStage2 reading { s with accTimer := false }) := by
  obtain ⟨count, sent, rest, time, below, history⟩ := counted
  simp only [State.pending, List.cons.injEq, and_true] at pending
  obtain ⟨gcc, tasklet, acc, sig, restarted⟩ := pending
  have noBug := inv.recorded.noBug
  cases reading with
  | false =>
      have recorded : Recorded (s.note (.stage2 false)) :=
        inv.recorded.read (.inr (.inr (.inr rfl)))
      have last : (told (s.note (.stage2 false)).history).head? = some true := by
        change (told s.history).head? = some true
        rw [history, told_replicate_stage2]
        rfl
      have onRecorded : Recorded ((s.note (.stage2 false)).tell .accOn) :=
        recorded.tell (fun _ _ => ⟨rfl, rfl⟩) ⟨s.history, rfl⟩ (by rw [last]; nofun)
      refine ⟨onRecorded.congr rfl rfl ?_, .gcc ?_ ?_ rfl ?_ ?_ nofun calm⟩
      · change (s.bug || s.gccTimer) = false
        rw [noBug, gcc, Bool.or_self]
      · change [true, s.accTasklet, false, s.sigTimer, s.restarted] = _
        rw [tasklet, sig, restarted]
      · change s.accSem + 1 = 1
        rw [sem]
      · change s.accFlag1 ≤ 2
        omega
      · refine ⟨.accOn s.msgFlag :: .stage2 false :: s.history, ?_⟩
        change .accOn s.msgFlag :: .stage2 false :: s.history = List.replicate s.accFlag1 _ ++ _
        rw [clear]
        rfl
  | true =>
      have recorded : Recorded (s.note (.stage2 true)) :=
        inv.recorded.read (.inr (.inr (.inl rfl)))
      have read : .stage2 true :: s.history =
          List.replicate (count + 1) (.stage2 true) ++ .accOff s.totalTime1 sent :: rest := by
        rw [history]
        rfl
      by_cases expired : s.totalTime ≥ s.totalTime1
      · -- the reading that reaches the delay is the last of as many as the delay says
        have exact : (max 1 s.totalTime1).toNat = count + 1 := by omega
        have offRecorded : Recorded ((s.note (.stage2 true)).tell .delayOff) := by
          refine recorded.delayOff (.inr ⟨s.totalTime1, sent, rest, ?_⟩)
          rw [exact]
          exact read
        have result : checkAccStage2 true { s with accTimer := false } =
            { (s.note (.stage2 true)).tell .delayOff with
              accTimer := false
              accSem := s.accSem + 1
              accFlag := false
              sigTimer := true
              bug := s.bug || false } := by
          simp only [checkAccStage2, State.note, Bool.not_true, Bool.false_eq_true, ↓reduceIte,
            expired, up, State.tell, State.addSigTimer]
        rw [result]
        refine ⟨offRecorded.congr rfl rfl ?_, .sig ?_ ?_ ?_ ⟨s.msgFlag, List.mem_cons_self ..⟩⟩
        · change (s.bug || false) = false
          rw [noBug, Bool.or_self]
        · change [s.gccTimer, s.accTasklet, false, true, s.restarted] = _
          rw [gcc, tasklet, restarted]
        · change s.accSem + 1 = 1
          rw [sem]
        · change s.delayFlag ≤ 5
          omega
      · have result : checkAccStage2 true { s with accTimer := false } =
            { s.note (.stage2 true) with
              accTimer := true
              totalTime := s.totalTime + accTime
              bug := s.bug || false } := by
          simp only [checkAccStage2, State.note, Bool.not_true, Bool.false_eq_true, ↓reduceIte,
            expired, State.addAccTimer]
        rw [result]
        refine ⟨recorded.congr rfl rfl ?_, .acc ?_ sem flag clear
          ⟨count + 1, sent, rest, ?_, .inr ?_, read⟩ calm⟩
        · change (s.bug || false) = false
          rw [noBug, Bool.or_self]
        · change [s.gccTimer, s.accTasklet, true, s.sigTimer, s.restarted] = _
          rw [gcc, tasklet, sig, restarted]
        · change s.totalTime + 1 = _
          rw [time]
          push_cast
          rfl
        · change ((count + 1 : Nat) : Int) < s.totalTime1
          push_cast
          omega

/-- The shutdown. -/
theorem inv_apShutdown (inv : Inv s) (sem : s.accSem = 1)
    (pending : s.pending = [false, false, false, true, false]) (few : s.delayFlag ≤ 5)
    (off : ∃ sent, .delayOff sent ∈ s.history) :
    Inv (apShutdown { s with sigTimer := false }) := by
  simp only [State.pending, List.cons.injEq, and_true] at pending
  obtain ⟨gcc, tasklet, acc, sig, restarted⟩ := pending
  have noBug := inv.recorded.noBug
  have recorded : Recorded (s.tell .delayOff) := inv.recorded.delayOff (.inl off)
  by_cases again : s.delayFlag + 1 < 6
  · have result : apShutdown { s with sigTimer := false } =
        { s.tell .delayOff with
          delayFlag := s.delayFlag + 1
          sigTimer := true
          bug := s.bug || false } := by
      simp only [apShutdown, State.tell, State.note, again, ↓reduceIte, State.addSigTimer]
    rw [result]
    refine ⟨recorded.congr rfl rfl ?_, .sig ?_ sem ?_ ⟨s.msgFlag, List.mem_cons_self ..⟩⟩
    · change (s.bug || false) = false
      rw [noBug, Bool.or_self]
    · change [s.gccTimer, s.accTasklet, s.accTimer, true, s.restarted] = _
      rw [gcc, tasklet, acc, restarted]
    · change s.delayFlag + 1 ≤ 5
      omega
  · have result : apShutdown { s with sigTimer := false } =
        { s.tell .delayOff with
          delayFlag := s.delayFlag + 1
          sigTimer := false
          restarted := true } := by
      simp only [apShutdown, State.tell, State.note, again, ↓reduceIte]
    rw [result]
    refine ⟨recorded.congr rfl rfl noBug, .restarted ?_ sem⟩
    change [s.gccTimer, s.accTasklet, s.accTimer, false, true] = _
    rw [gcc, tasklet, acc]

/-- The `ioctl` does not touch the delay while the second stage counts. -/
theorem inv_setAccGpioTimer (inv : Inv s) (num : UInt32) : Inv (setAccGpioTimer num s) := by
  unfold setAccGpioTimer
  split
  · exact inv
  · rename_i unset
    refine ⟨inv.recorded.congr rfl rfl inv.recorded.noBug, ?_⟩
    cases inv.phase with
    | gcc pending sem flag few readings turn calm =>
        exact .gcc pending sem flag few readings turn calm
    | tasklet pending sem flag start clear readings turn calm =>
        exact .tasklet pending sem flag start clear readings turn calm
    | acc pending sem flag => exact absurd flag unset
    | sig pending sem few off => exact .sig pending sem few off
    | restarted pending sem => exact .restarted pending sem

/-- A listener makes itself known. -/
theorem inv_listen (inv : Inv s) : Inv { s with msgFlag := true } := by
  have recorded := inv.recorded
  refine ⟨⟨recorded.explained, recorded.turns, recorded.sent, nofun, recorded.noBug⟩, ?_⟩
  cases inv.phase with
  | gcc pending sem flag few readings turn calm =>
      exact .gcc pending sem flag few readings turn calm
  | tasklet pending sem flag start clear readings turn calm =>
      exact .tasklet pending sem flag start clear readings turn calm
  | acc pending sem flag clear counted calm => exact .acc pending sem flag clear counted calm
  | sig pending sem few off => exact .sig pending sem few off
  | restarted pending sem => exact .restarted pending sem

theorem pending_eq {gcc tasklet acc sig restarted : Bool}
    (pending : s.pending = [gcc, tasklet, acc, sig, restarted]) :
    s.gccTimer = gcc ∧ s.accTasklet = tasklet ∧ s.accTimer = acc ∧ s.sigTimer = sig ∧
      s.restarted = restarted := by
  simpa only [State.pending, List.cons.injEq, and_true] using pending

/-- A handler runs when what it waits for is pending. -/
theorem handler_ran {pending restarted : Bool} {after next : State}
    (ran : (if pending && !restarted then some after else none) = some next) :
    pending = true ∧ after = next := by
  obtain ⟨taken, same⟩ := Option.ite_none_right_eq_some.mp ran
  exact ⟨(Bool.and_eq_true _ _ ▸ taken).1, Option.some.inj same⟩

/-- One step keeps the invariant. -/
theorem step_inv {next : State} (inv : Inv s) (input : Input) (stepped : step s input = some next) :
    Inv next := by
  cases input with
  | gccTimer reading =>
      obtain ⟨due, rfl⟩ := handler_ran stepped
      cases inv.phase with
      | gcc pending sem flag few readings turn calm =>
          exact inv_checkAccStage1 inv sem flag few pending readings turn calm reading
      | tasklet pending => cases due.symm.trans (pending_eq pending).1
      | acc pending => cases due.symm.trans (pending_eq pending).1
      | sig pending => cases due.symm.trans (pending_eq pending).1
      | restarted pending => cases due.symm.trans (pending_eq pending).1
  | accTasklet =>
      obtain ⟨due, rfl⟩ := handler_ran stepped
      cases inv.phase with
      | tasklet pending sem flag start clear readings turn calm =>
          exact inv_taskletAction inv sem pending start clear readings turn calm
      | gcc pending => cases due.symm.trans (pending_eq pending).2.1
      | acc pending => cases due.symm.trans (pending_eq pending).2.1
      | sig pending => cases due.symm.trans (pending_eq pending).2.1
      | restarted pending => cases due.symm.trans (pending_eq pending).2.1
  | accTimer reading =>
      obtain ⟨due, rfl⟩ := handler_ran stepped
      cases inv.phase with
      | acc pending sem flag clear counted calm =>
          exact inv_checkAccStage2 inv sem pending clear flag counted calm reading
      | gcc pending => cases due.symm.trans (pending_eq pending).2.2.1
      | tasklet pending => cases due.symm.trans (pending_eq pending).2.2.1
      | sig pending => cases due.symm.trans (pending_eq pending).2.2.1
      | restarted pending => cases due.symm.trans (pending_eq pending).2.2.1
  | sigTimer =>
      obtain ⟨due, rfl⟩ := handler_ran stepped
      cases inv.phase with
      | sig pending sem few off => exact inv_apShutdown inv sem pending few off
      | gcc pending => cases due.symm.trans (pending_eq pending).2.2.2.1
      | tasklet pending => cases due.symm.trans (pending_eq pending).2.2.2.1
      | acc pending => cases due.symm.trans (pending_eq pending).2.2.2.1
      | restarted pending => cases due.symm.trans (pending_eq pending).2.2.2.1
  | setTimer num =>
      obtain ⟨_, same⟩ := Option.ite_none_left_eq_some.mp stepped
      obtain rfl := Option.some.inj same
      exact inv_setAccGpioTimer inv num
  | listen =>
      obtain ⟨_, same⟩ := Option.ite_none_left_eq_some.mp stepped
      obtain rfl := Option.some.inj same
      exact inv_listen inv

/-- What is safe about a state: what is pending, the semaphore, and what the notices of its
history, newest first, come after. -/
structure Safe (s : State) : Prop where
  one : s.pending.count true = 1
  sem : s.accSem = 0 ↔ s.accTasklet = true ∨ s.accTimer = true
  accOff : ∀ later totalTime1 sent earlier,
    s.history = later ++ .accOff totalTime1 sent :: earlier →
      ∃ rest, earlier = .stage1 true :: .stage1 true :: .stage1 true :: rest
  accOn : ∀ later sent earlier, s.history = later ++ .accOn sent :: earlier →
    ∃ rest, earlier = .stage2 false :: rest
  delayOff : ∀ later sent earlier, s.history = later ++ .delayOff sent :: earlier →
    (∀ first, .delayOff first ∉ earlier) →
      ∃ totalTime1 off rest, earlier =
        List.replicate (max 1 totalTime1).toNat (.stage2 true) ++ .accOff totalTime1 off :: rest
  turns : (told s.history).IsChain (· ≠ ·)
  sentTurns : (sentNotices s.history).IsChain (· ≠ ·)
  noBug : s.bug = false

theorem Inv.safe (inv : Inv s) : Safe s := by
  have recorded := inv.recorded
  have pendings : s.pending.count true = 1 ∧
      (s.accSem = 0 ↔ s.accTasklet = true ∨ s.accTimer = true) := by
    cases inv.phase with
    | gcc pending sem =>
        obtain ⟨_, tasklet, acc, _⟩ := pending_eq pending
        rw [pending, sem, tasklet, acc]
        decide
    | tasklet pending sem =>
        obtain ⟨_, tasklet, acc, _⟩ := pending_eq pending
        rw [pending, sem, tasklet, acc]
        decide
    | acc pending sem =>
        obtain ⟨_, tasklet, acc, _⟩ := pending_eq pending
        rw [pending, sem, tasklet, acc]
        decide
    | sig pending sem =>
        obtain ⟨_, tasklet, acc, _⟩ := pending_eq pending
        rw [pending, sem, tasklet, acc]
        decide
    | restarted pending sem =>
        obtain ⟨_, tasklet, acc, _⟩ := pending_eq pending
        rw [pending, sem, tasklet, acc]
        decide
  refine {
    one := pendings.1
    sem := pendings.2
    accOff := ?_
    accOn := ?_
    delayOff := ?_
    turns := recorded.turns
    sentTurns := recorded.turns.prefix recorded.sent
    noBug := recorded.noBug }
  · intro later totalTime1 sent earlier history
    exact (history ▸ recorded.explained).at
  · intro later sent earlier history
    exact (history ▸ recorded.explained).at
  · intro later sent earlier history first
    rcases (history ▸ recorded.explained : Explained _).at with ⟨before, member⟩ | after
    · exact absurd member (first before)
    · exact after

/-- Every state the module can reach, whatever the ignition line reads, whenever the delay is
set and whenever a listener comes, is safe. -/
theorem ignition_safe (msgFlag : Bool) (inputs : List Input) (s : State)
    (reached : attempt step (accInit msgFlag) inputs = some s) : Safe s :=
  (attempt_invariant (fun _ input _ inv _ stepped => step_inv inv input stepped) inputs _ s
    (inv_accInit msgFlag) (met_true step _ inputs) reached).safe

/-- The ignition goes off with a delay of two, and the module starts to shut down. -/
theorem ignition_safe_off :
    ∃ s, attempt step (accInit true)
        [.setTimer 2, .gccTimer true, .gccTimer true, .gccTimer true, .accTasklet,
          .accTimer true, .accTimer true] = some s ∧
      s.history = [.delayOff true, .stage2 true, .stage2 true, .accOff 2 true, .stage1 true,
        .stage1 true, .stage1 true] ∧ Safe s := by
  refine ⟨_, rfl, rfl, ?_⟩
  exact ignition_safe true [.setTimer 2, .gccTimer true, .gccTimer true, .gccTimer true,
    .accTasklet, .accTimer true, .accTimer true] _ rfl

end Trunk.Acc
