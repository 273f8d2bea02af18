import Mathlib.Logic.Function.Basic
import Trunk.Foundation.Run

/-! # The partition lock

`part_lock` and `part_unlock` of `partool.c`, as the system calls of any number of
sessions interleaved in any order. The lock file is a name that refers to an inode or
to nothing, an open creates the file where the name refers to nothing, and `flock`
locks an inode for one open file at a time. Sessions load and save the partition
while they run.

Unlinking the name while another session has the file open leaves that session with
a lock on an inode no later session will meet (`Trunk.Lock.two_sessions_hold`).
Without such an unlink at most one session holds the lock, and without a failed
`part_lock` no update is lost (`Trunk.Lock.lock_excludes`).
-/

namespace Trunk.Lock

open Run

/-- Where a session is. `part_lock` reports a failure as a positive `errno`, which
`__part_block_new` takes for success: the session then runs with `lockfd` zero, which
is `none` here, and so does its `part_unlock`. -/
inductive Phase where
  | idle
  | opened (inode : Nat)
  | failed (inode : Nat)
  | session (file : Option Nat)
  | released (file : Option Nat)
  | closed
  deriving DecidableEq, Repr

/-- The inode a session has the lock file open on. -/
def Phase.file : Phase → Option Nat
  | .idle => none
  | .opened inode => some inode
  | .failed inode => some inode
  | .session file => file
  | .released file => file
  | .closed => none

/-- What the sessions share, and where each one is. Inodes are numbered in the order
of their creation. `copy` is what a session last loaded or saved. -/
structure State (Proc Image : Type) where
  name : Option Nat
  created : Nat
  lock : Nat → Option Proc
  phase : Proc → Phase
  partition : Image
  copy : Proc → Option Image

/-- The calls of a session, with their outcome where the source tests it or where it
matters. -/
inductive Call (Image : Type) where
  | open (ok : Bool)
  | flockEx (ok : Bool)
  | flockUn (ok : Bool)
  | close
  | unlink
  | load
  | save (image : Image)

variable {Proc Image : Type}

def init (image : Image) : State Proc Image where
  name := none
  created := 0
  lock := fun _ => none
  phase := fun _ => .idle
  partition := image
  copy := fun _ => none

variable [DecidableEq Proc]

/-- The session moves on. -/
def State.move (s : State Proc Image) (proc : Proc) (phase : Phase) : State Proc Image :=
  { s with phase := Function.update s.phase proc phase }

/-- The lock a session's open file has on its inode, if it has it, is given up. -/
def State.release (s : State Proc Image) (proc : Proc) : Option Nat → State Proc Image
  | none => s
  | some inode =>
      if s.lock inode = some proc then { s with lock := Function.update s.lock inode none } else s

/-- One system call of one session. There is no next state when the call is out of
turn, or when it has to wait. -/
def step (s : State Proc Image) (input : Proc × Call Image) : Option (State Proc Image) :=
  let proc := input.1
  match s.phase proc, input.2 with
  | .idle, .open true =>
      let s := { s with copy := Function.update s.copy proc none }
      match s.name with
      | some inode => some (s.move proc (.opened inode))
      | none =>
          some ({ s with name := some s.created, created := s.created + 1 }.move proc
            (.opened s.created))
  | .idle, .open false =>
      some ({ s with copy := Function.update s.copy proc none }.move proc (.session none))
  | .opened inode, .flockEx true =>
      if s.lock inode = none then
        some ({ s with lock := Function.update s.lock inode (some proc) }.move proc
          (.session (some inode)))
      else none
  | .opened inode, .flockEx false => some (s.move proc (.failed inode))
  | .failed _, .close => some (s.move proc (.session none))
  | .session _, .load =>
      some { s with copy := Function.update s.copy proc (some s.partition) }
  | .session _, .save image =>
      some { s with partition := image, copy := Function.update s.copy proc (some image) }
  | .session file, .flockUn true => some ((s.release proc file).move proc (.released file))
  | .session file, .flockUn false => some (s.move proc (.released file))
  | .released file, .close => some ((s.release proc file).move proc .closed)
  | .closed, .unlink => some ({ s with name := none }.move proc .idle)
  | _, _ => none

/-- The session is between a successful `part_lock` and the start of `part_unlock`. -/
def State.Holds (s : State Proc Image) (proc : Proc) : Prop :=
  ∃ inode, s.phase proc = .session (some inode)

/-- What a running session last loaded or saved is what the partition holds: no other
session's update is about to be lost. -/
def State.Current (s : State Proc Image) : Prop :=
  ∀ proc file image, s.phase proc = .session file → s.copy proc = some image →
    s.partition = image

/-- An unlink finds no other session with the named file open. -/
def Call.Alone (s : State Proc Image) (input : Proc × Call Image) : Prop :=
  match input.2 with
  | .unlink => ∀ other, other ≠ input.1 → (s.phase other).file = none ∨
      (s.phase other).file ≠ s.name
  | _ => True

/-- The call is not a failing step of `part_lock`. -/
def Call.Succeeds : Call Image → Prop
  | .open ok => ok = true
  | .flockEx ok => ok = true
  | _ => True

variable {s next : State Proc Image} {proc : Proc} {phase : Phase}

/-- What one call can do: the cases of `step`. -/
inductive Does (s : State Proc Image) (proc : Proc) : Call Image → State Proc Image → Prop where
  | openFound (inode : Nat) (idle : s.phase proc = .idle) (name : s.name = some inode) :
      Does s proc (.open true)
        ({ s with copy := Function.update s.copy proc none }.move proc (.opened inode))
  | openCreated (idle : s.phase proc = .idle) (name : s.name = none) :
      Does s proc (.open true)
        ({ s with
          copy := Function.update s.copy proc none
          name := some s.created
          created := s.created + 1 }.move proc (.opened s.created))
  | openFailed (idle : s.phase proc = .idle) :
      Does s proc (.open false)
        ({ s with copy := Function.update s.copy proc none }.move proc (.session none))
  | locked (inode : Nat) (ready : s.phase proc = .opened inode) (free : s.lock inode = none) :
      Does s proc (.flockEx true)
        ({ s with lock := Function.update s.lock inode (some proc) }.move proc
          (.session (some inode)))
  | lockFailed (inode : Nat) (ready : s.phase proc = .opened inode) :
      Does s proc (.flockEx false) (s.move proc (.failed inode))
  | givenUp (inode : Nat) (ready : s.phase proc = .failed inode) :
      Does s proc .close (s.move proc (.session none))
  | loaded (file : Option Nat) (running : s.phase proc = .session file) :
      Does s proc .load { s with copy := Function.update s.copy proc (some s.partition) }
  | saved (file : Option Nat) (running : s.phase proc = .session file) (image : Image) :
      Does s proc (.save image)
        { s with partition := image, copy := Function.update s.copy proc (some image) }
  | unlocked (file : Option Nat) (running : s.phase proc = .session file) :
      Does s proc (.flockUn true) ((s.release proc file).move proc (.released file))
  | unlockFailed (file : Option Nat) (running : s.phase proc = .session file) :
      Does s proc (.flockUn false) (s.move proc (.released file))
  | closed (file : Option Nat) (done : s.phase proc = .released file) :
      Does s proc .close ((s.release proc file).move proc .closed)
  | unlinked (done : s.phase proc = .closed) :
      Does s proc .unlink ({ s with name := none }.move proc .idle)

theorem step_does {call : Call Image} (stepped : step s (proc, call) = some next) :
    Does s proc call next := by
  unfold step at stepped
  dsimp only at stepped
  split at stepped
  · rename_i idle
    split at stepped
    · rename_i inode name
      obtain rfl := Option.some.inj stepped
      exact .openFound inode idle name
    · rename_i name
      obtain rfl := Option.some.inj stepped
      exact .openCreated idle name
  · rename_i idle
    obtain rfl := Option.some.inj stepped
    exact .openFailed idle
  · rename_i inode ready
    split at stepped
    · rename_i free
      obtain rfl := Option.some.inj stepped
      exact .locked inode ready free
    · cases stepped
  · rename_i inode ready
    obtain rfl := Option.some.inj stepped
    exact .lockFailed inode ready
  · rename_i inode ready
    obtain rfl := Option.some.inj stepped
    exact .givenUp inode ready
  · rename_i file running
    obtain rfl := Option.some.inj stepped
    exact .loaded file running
  · rename_i file image running
    obtain rfl := Option.some.inj stepped
    exact .saved file running image
  · rename_i file running
    obtain rfl := Option.some.inj stepped
    exact .unlocked file running
  · rename_i file running
    obtain rfl := Option.some.inj stepped
    exact .unlockFailed file running
  · rename_i file done
    obtain rfl := Option.some.inj stepped
    exact .closed file done
  · rename_i done
    obtain rfl := Option.some.inj stepped
    exact .unlinked done
  · cases stepped

/-- Every open lock file is the one the name refers to, and a session that holds the
lock has its inode locked. -/
structure Exclusive (s : State Proc Image) : Prop where
  named : ∀ proc inode, (s.phase proc).file = some inode → s.name = some inode
  locked : ∀ proc inode, s.phase proc = .session (some inode) → s.lock inode = some proc

omit [DecidableEq Proc] in
theorem exclusive_init (image : Image) : Exclusive (init image : State Proc Image) where
  named := by simp [init, Phase.file]
  locked := by simp [init]

omit [DecidableEq Proc] in
/-- One inode is locked for at most one session. -/
theorem Exclusive.holder_unique (exclusive : Exclusive s) {other : Proc} (first : s.Holds proc)
    (second : s.Holds other) : proc = other := by
  obtain ⟨inode, here⟩ := first
  obtain ⟨inode', there⟩ := second
  have name := exclusive.named proc inode (by rw [here]; rfl)
  have name' := exclusive.named other inode' (by rw [there]; rfl)
  obtain rfl := Option.some.inj (name.symm.trans name')
  have lock := exclusive.locked proc inode here
  rw [exclusive.locked other inode there] at lock
  exact (Option.some.inj lock).symm

/-- A call by one session, which the others see as far as the name and the locks of
their own files go. -/
theorem exclusive_of_moved
    (phases : next.phase = Function.update s.phase proc phase)
    (name : ∀ other inode, other ≠ proc → (s.phase other).file = some inode →
      next.name = some inode)
    (lock : ∀ other inode, other ≠ proc → s.phase other = .session (some inode) →
      next.lock inode = some other)
    (file : ∀ inode, phase.file = some inode → next.name = some inode)
    (own : ∀ inode, phase = .session (some inode) → next.lock inode = some proc) :
    Exclusive next := by
  constructor
  · intro other inode isOpen
    rw [phases] at isOpen
    by_cases same : other = proc
    · subst other
      rw [Function.update_self] at isOpen
      exact file inode isOpen
    · rw [Function.update_of_ne same] at isOpen
      exact name other inode same isOpen
  · intro other inode running
    rw [phases] at running
    by_cases same : other = proc
    · subst other
      rw [Function.update_self] at running
      exact own inode running
    · rw [Function.update_of_ne same] at running
      exact lock other inode same running

/-- Moving on with the same file open, or with none, and no lock of its own. -/
theorem Exclusive.move (exclusive : Exclusive s)
    (file : ∀ inode, phase.file = some inode → s.name = some inode)
    (own : ∀ inode, phase = .session (some inode) → s.lock inode = some proc) :
    Exclusive (s.move proc phase) :=
  exclusive_of_moved rfl (fun other inode _ => exclusive.named other inode)
    (fun other inode _ => exclusive.locked other inode) file own

theorem release_name (file : Option Nat) : (s.release proc file).name = s.name := by
  unfold State.release
  split
  · rfl
  · split <;> rfl

theorem release_phase (file : Option Nat) : (s.release proc file).phase = s.phase := by
  unfold State.release
  split
  · rfl
  · split <;> rfl

/-- Giving up a lock leaves the locks of the other sessions. -/
theorem release_lock (file : Option Nat) {other : Proc} {inode : Nat} (different : other ≠ proc)
    (held : s.lock inode = some other) : (s.release proc file).lock inode = some other := by
  unfold State.release
  split
  · exact held
  · rename_i released
    split
    · rename_i owner
      have apart : inode ≠ released := by
        rintro rfl
        exact different (Option.some.inj (held.symm.trans owner))
      simp only [Function.update_of_ne apart, held]
    · exact held

theorem Exclusive.release (exclusive : Exclusive s) (file : Option Nat)
    (isOpen : ∀ inode, phase.file = some inode → s.name = some inode)
    (given : ∀ inode, phase ≠ .session (some inode)) :
    Exclusive ((s.release proc file).move proc phase) := by
  apply exclusive_of_moved
  · simp only [State.move, release_phase]
    rfl
  · intro other inode _ named
    simp only [State.move, release_name]
    exact exclusive.named other inode named
  · intro other inode different running
    exact release_lock file different (exclusive.locked other inode running)
  · intro inode named
    simp only [State.move, release_name]
    exact isOpen inode named
  · exact fun inode running => absurd running (given inode)

/-- Every call keeps the lock exclusive, an unlink if it is made alone. -/
theorem step_exclusive (exclusive : Exclusive s) {input : Proc × Call Image}
    (alone : Call.Alone s input) (stepped : step s input = some next) : Exclusive next := by
  obtain ⟨proc, call⟩ := input
  have sameName : ∀ other inode, other ≠ proc → (s.phase other).file = some inode →
      s.name = some inode := fun other inode _ => exclusive.named other inode
  have sameLock : ∀ other inode, other ≠ proc → s.phase other = .session (some inode) →
      s.lock inode = some other := fun other inode _ => exclusive.locked other inode
  cases step_does stepped with
  | openFound inode idle name =>
      refine exclusive_of_moved rfl sameName sameLock ?_ (by simp)
      rintro _ ⟨⟩
      exact name
  | openCreated idle name =>
      -- no one has an older file open
      refine exclusive_of_moved rfl ?_ sameLock ?_ (by simp)
      · intro other inode _ isOpen
        rw [exclusive.named other inode isOpen] at name
        cases name
      · rintro _ ⟨⟩
        rfl
  | openFailed idle =>
      exact exclusive_of_moved rfl sameName sameLock (by simp [Phase.file]) (by simp)
  | locked inode ready free =>
      refine exclusive_of_moved rfl sameName ?_ ?_ ?_
      · intro other inode' different running
        have held := sameLock other inode' different running
        have apart : inode' ≠ inode := by
          rintro rfl
          rw [free] at held
          cases held
        simp only [State.move, Function.update_of_ne apart, held]
      · rintro _ ⟨⟩
        exact exclusive.named proc inode (by rw [ready]; rfl)
      · rintro _ ⟨⟩
        simp only [State.move, Function.update_self]
  | lockFailed inode ready =>
      refine exclusive.move ?_ (by simp)
      rintro _ ⟨⟩
      exact exclusive.named proc inode (by rw [ready]; rfl)
  | givenUp inode ready => exact exclusive.move (by simp [Phase.file]) (by simp)
  | loaded file running => exact ⟨exclusive.named, exclusive.locked⟩
  | saved file running image => exact ⟨exclusive.named, exclusive.locked⟩
  | unlocked file running =>
      refine exclusive.release file (fun inode isOpen => ?_) (by simp)
      exact exclusive.named proc inode (by rw [running]; exact isOpen)
  | unlockFailed file running =>
      refine exclusive.move (fun inode isOpen => ?_) (by simp)
      exact exclusive.named proc inode (by rw [running]; exact isOpen)
  | closed file done => exact exclusive.release _ (by simp [Phase.file]) (by simp)
  | unlinked done =>
      -- whoever has a file open has the named one open, so no one has
      refine exclusive_of_moved rfl ?_ sameLock (by simp [Phase.file]) (by simp)
      intro other inode different isOpen
      rcases alone other different with nothing | apart
      · rw [nothing] at isOpen
        cases isOpen
      · exact absurd (isOpen.trans (exclusive.named other inode isOpen).symm) apart

/-- No session runs without the lock, none has loaded anything before it runs, and the
copy of every running one is current. -/
structure Settled (s : State Proc Image) : Prop where
  locked : ∀ proc, s.phase proc ≠ .session none ∧ ∀ inode, s.phase proc ≠ .failed inode
  fresh : ∀ proc inode, s.phase proc = .opened inode → s.copy proc = none
  current : s.Current

omit [DecidableEq Proc] in
theorem settled_init (image : Image) : Settled (init image : State Proc Image) where
  locked := by simp [init]
  fresh := by simp [init]
  current := by simp [init, State.Current]

/-- A call that does not touch the partition, nor any copy but its session's. -/
theorem Settled.moved (settled : Settled s)
    (phases : next.phase = Function.update s.phase proc phase)
    (partition : next.partition = s.partition)
    (copy : ∀ other, other ≠ proc → next.copy other = s.copy other)
    (locked : phase ≠ .session none ∧ ∀ inode, phase ≠ .failed inode)
    (fresh : ∀ inode, phase = .opened inode → next.copy proc = none)
    (started : ∀ file, phase = .session file → next.copy proc = none) : Settled next := by
  have self : next.phase proc = phase := by rw [phases, Function.update_self]
  have others : ∀ other, other ≠ proc → next.phase other = s.phase other := by
    intro other different
    rw [phases, Function.update_of_ne different]
  refine ⟨fun other => ?_, fun other inode ready => ?_, fun other file image running loaded => ?_⟩
  all_goals by_cases same : other = proc
  · subst other
    rw [self]
    exact locked
  · rw [others other same]
    exact settled.locked other
  · subst other
    exact fresh inode (self.symm.trans ready)
  · rw [copy other same]
    exact settled.fresh other inode ((others other same).symm.trans ready)
  · subst other
    rw [started file (self.symm.trans running)] at loaded
    cases loaded
  · rw [partition]
    rw [others other same] at running
    rw [copy other same] at loaded
    exact settled.current other file image running loaded

omit [DecidableEq Proc] in
theorem Settled.holds (settled : Settled s) {file : Option Nat}
    (running : s.phase proc = .session file) : s.Holds proc := by
  cases file with
  | none => exact absurd running (settled.locked proc).1
  | some inode => exact ⟨inode, running⟩

theorem release_partition (file : Option Nat) :
    (s.release proc file).partition = s.partition := by
  unfold State.release
  split
  · rfl
  · split <;> rfl

theorem release_copy (file : Option Nat) : (s.release proc file).copy = s.copy := by
  unfold State.release
  split
  · rfl
  · split <;> rfl

theorem Settled.release (settled : Settled s) (file : Option Nat)
    (locked : phase ≠ .session none ∧ ∀ inode, phase ≠ .failed inode)
    (fresh : ∀ inode, phase ≠ .opened inode) (started : ∀ file, phase ≠ .session file) :
    Settled ((s.release proc file).move proc phase) := by
  refine settled.moved (by simp only [State.move, release_phase]; rfl) (release_partition file) ?_
    locked (fun inode ready => absurd ready (fresh inode))
    (fun file running => absurd running (started file))
  intro other _
  simp only [State.move, release_copy]

/-- The only session that runs loads or saves. -/
theorem Settled.access (settled : Settled s) (exclusive : Exclusive s) {file : Option Nat}
    {image : Image} (running : s.phase proc = .session file) (phases : next.phase = s.phase)
    (partition : next.partition = image)
    (copy : next.copy = Function.update s.copy proc (some image)) : Settled next := by
  refine ⟨by rw [phases]; exact settled.locked, fun other inode ready => ?_,
    fun other file' image' running' loaded => ?_⟩
  · rw [phases] at ready
    have different : other ≠ proc := by
      rintro rfl
      rw [running] at ready
      cases ready
    rw [copy, Function.update_of_ne different]
    exact settled.fresh other inode ready
  · rw [phases] at running'
    obtain rfl := exclusive.holder_unique (settled.holds running) (settled.holds running')
    rw [copy, Function.update_self] at loaded
    rw [partition]
    exact Option.some.inj loaded

/-- Every call that is not a failing step of `part_lock` keeps the copies current. -/
theorem step_settled (settled : Settled s) (exclusive : Exclusive s) {input : Proc × Call Image}
    (succeeds : input.2.Succeeds) (stepped : step s input = some next) : Settled next := by
  obtain ⟨proc, call⟩ := input
  have sameCopy : ∀ (update : Option Image) other, other ≠ proc →
      Function.update s.copy proc update other = s.copy other :=
    fun _ other different => Function.update_of_ne different ..
  cases step_does stepped with
  | openFound inode idle name =>
      exact settled.moved rfl rfl (sameCopy none) (by simp)
        (fun _ _ => Function.update_self ..) (by simp)
  | openCreated idle name =>
      exact settled.moved rfl rfl (sameCopy none) (by simp)
        (fun _ _ => Function.update_self ..) (by simp)
  | openFailed idle => cases succeeds
  | locked inode ready free =>
      exact settled.moved rfl rfl (fun _ _ => rfl) (by simp) (by simp)
        (fun _ _ => settled.fresh proc inode ready)
  | lockFailed inode ready => cases succeeds
  | givenUp inode ready => exact absurd ready ((settled.locked proc).2 inode)
  | loaded file running => exact settled.access exclusive running rfl rfl rfl
  | saved file running image => exact settled.access exclusive running rfl rfl rfl
  | unlocked file running => exact settled.release _ (by simp) (by simp) (by simp)
  | unlockFailed file running =>
      exact settled.moved rfl rfl (fun _ _ => rfl) (by simp) (by simp) (by simp)
  | closed file done => exact settled.release _ (by simp) (by simp) (by simp)
  | unlinked done =>
      exact settled.moved rfl rfl (fun _ _ => rfl) (by simp) (by simp) (by simp)

/-- In every run in which each unlink of the lock file finds no other session with
the named file open, at most one session is between a successful `part_lock` and its
`part_unlock`; and if no `part_lock` of the run failed, a running session's copy of
the partition is current. -/
theorem lock_excludes (image : Image) (inputs : List (Proc × Call Image))
    (last : State Proc Image) (ran : attempt step (init image) inputs = some last)
    (alone : Met step Call.Alone (init image) inputs) :
    (∀ proc other, last.Holds proc → last.Holds other → proc = other) ∧
      ((∀ input ∈ inputs, input.2.Succeeds) → last.Current) := by
  have exclusive : Exclusive last := attempt_invariant
    (fun _ _ _ exclusive alone stepped => step_exclusive exclusive alone stepped)
    inputs (init image) last (exclusive_init image) alone ran
  refine ⟨fun proc other => exclusive.holder_unique, fun succeeds => ?_⟩
  have keeps : ∀ (s : State Proc Image) (input : Proc × Call Image) (next : State Proc Image),
      Exclusive s ∧ Settled s → Call.Alone s input ∧ input.2.Succeeds →
      step s input = some next → Exclusive next ∧ Settled next := by
    rintro s input next ⟨exclusive, settled⟩ ⟨alone, succeeds⟩ stepped
    exact ⟨step_exclusive exclusive alone stepped,
      step_settled settled exclusive succeeds stepped⟩
  exact (attempt_invariant keeps inputs (init image) last
    ⟨exclusive_init image, settled_init image⟩ (alone.and_mem succeeds) ran).2.current

/-- A session updates the partition and leaves before a second one comes. -/
theorem lock_excludes_handover :
    ∃ last : State Bool Nat, attempt step (init 0)
        [(true, .open true), (true, .flockEx true), (true, .save 1), (true, .flockUn true),
          (true, .close), (true, .unlink), (false, .open true), (false, .flockEx true)] =
        some last ∧
      last.Holds false ∧ ∀ proc other, last.Holds proc → last.Holds other → proc = other := by
  have reached : ∃ last : State Bool Nat, attempt step (init 0)
      [(true, .open true), (true, .flockEx true), (true, .save 1), (true, .flockUn true),
        (true, .close), (true, .unlink), (false, .open true), (false, .flockEx true)] =
      some last ∧ last.Holds false := ⟨_, rfl, 1, rfl⟩
  obtain ⟨last, ran, holds⟩ := reached
  refine ⟨last, ran, holds, (lock_excludes 0 _ last ran ?_).1⟩
  refine ⟨trivial, trivial, trivial, trivial, trivial, ?_, trivial, trivial, trivial⟩
  intro other different
  cases other with
  | false => exact .inl rfl
  | true => exact absurd rfl different

/-- A session waits for the lock of a second one, gets it, and loses its name to the
second one's unlink: the second then locks a file of its own. -/
theorem two_sessions_hold :
    ¬ ∀ (inputs : List (Bool × Call Nat)) (last : State Bool Nat),
      attempt step (init 0) inputs = some last →
        ∀ proc other, last.Holds proc → last.Holds other → proc = other := by
  intro excludes
  have same := excludes
    [(true, .open true), (true, .flockEx true), (false, .open true), (true, .flockUn true),
      (false, .flockEx true), (true, .close), (true, .unlink), (true, .open true),
      (true, .flockEx true)] _ rfl true false ⟨1, rfl⟩ ⟨0, rfl⟩
  cases same

end Trunk.Lock
