import Mathlib.Logic.Basic

/-! # Loops that may fail

A round of a loop fails, ends the loop with a result, or goes on to another state. Where every
round that goes on makes the state smaller, the loop is its rounds one after the other
(`Trunk.Loop.loop_eq`). What every round keeps holds at the end (`Trunk.Loop.loop_invariant`), and a
loop fails like one of its rounds (`Trunk.Loop.loop_fault`). Two loops whose rounds agree under a map agree (`Trunk.Loop.loop_map`). A loop has a result exactly
if no round that it reaches fails (`Trunk.Loop.exists_loop_ok_iff`).
-/

namespace Trunk.Loop

variable {State State' Fault Result Result' : Type}

/-- What a round ends with: the next state, or the result of the loop. -/
inductive Round (State Result : Type) where
  | again (state : State)
  | done (result : Result)
  deriving DecidableEq, Repr

/-- A number of rounds at most. -/
def iterate (body : State → Except Fault (Round State Result)) (stuck : Fault) :
    Nat → State → Except Fault Result
  | 0, _ => .error stuck
  | fuel + 1, state =>
      match body state with
      | .error fault => .error fault
      | .ok (.done result) => .ok result
      | .ok (.again next) => iterate body stuck fuel next

theorem iterate_again {body : State → Except Fault (Round State Result)} {stuck : Fault}
    {state next : State} (round : body state = .ok (.again next)) (fuel : Nat) :
    iterate body stuck (fuel + 1) state = iterate body stuck fuel next := by
  rw [iterate, round]

theorem iterate_done {body : State → Except Fault (Round State Result)} {stuck : Fault}
    {state : State} {result : Result} (round : body state = .ok (.done result)) (fuel : Nat) :
    iterate body stuck (fuel + 1) state = .ok result := by
  rw [iterate, round]

theorem iterate_error {body : State → Except Fault (Round State Result)} {stuck fault : Fault}
    {state : State} (round : body state = .error fault) (fuel : Nat) :
    iterate body stuck (fuel + 1) state = .error fault := by
  rw [iterate, round]

/-- Rounds that go on make the state smaller, and there is no round at size zero. -/
structure Shrinks (body : State → Except Fault (Round State Result)) (size : State → Nat)
    (stuck : Fault) : Prop where
  smaller : ∀ state next, body state = .ok (.again next) → size next < size state
  empty : ∀ state, size state = 0 → body state = .error stuck

/-- The loop. -/
def loop (body : State → Except Fault (Round State Result)) (size : State → Nat) (stuck : Fault)
    (state : State) : Except Fault Result :=
  iterate body stuck (size state) state

variable {body : State → Except Fault (Round State Result)} {size : State → Nat} {stuck : Fault}
  {state next : State} {result : Result}

/-- More rounds than the size of the state make no difference. -/
theorem iterate_enough (shrinks : Shrinks body size stuck) {fuel : Nat}
    (enough : size state ≤ fuel) :
    iterate body stuck fuel state = loop body size stuck state := by
  unfold loop
  induction fuel using Nat.strongRecOn generalizing state with
  | ind fuel ih =>
      cases least : size state with
      | zero =>
          cases fuel with
          | zero => rfl
          | succ fuel => simp only [iterate, shrinks.empty state least]
      | succ bound =>
          obtain ⟨fuel, rfl⟩ : ∃ less, fuel = less + 1 := ⟨fuel - 1, by omega⟩
          rw [iterate, iterate]
          cases round : body state with
          | error fault => rfl
          | ok outcome =>
              cases outcome with
              | done result => rfl
              | again next =>
                  have less := shrinks.smaller state next round
                  dsimp only
                  rw [ih fuel (by omega) (by omega), ih bound (by omega) (by omega)]

/-- A loop is a round, and the loop from where the round goes on. -/
theorem loop_eq (shrinks : Shrinks body size stuck) (state : State) :
    loop body size stuck state =
      match body state with
      | .error fault => .error fault
      | .ok (.done result) => .ok result
      | .ok (.again next) => loop body size stuck next := by
  rw [← iterate_enough shrinks (Nat.le_succ (size state)), iterate]
  cases round : body state with
  | error fault => rfl
  | ok outcome =>
      cases outcome with
      | done result => rfl
      | again next =>
          exact iterate_enough shrinks (Nat.le_of_lt (shrinks.smaller state next round))

theorem loop_again (shrinks : Shrinks body size stuck) (round : body state = .ok (.again next)) :
    loop body size stuck state = loop body size stuck next := by
  rw [loop_eq shrinks state, round]

theorem loop_done (shrinks : Shrinks body size stuck) (round : body state = .ok (.done result)) :
    loop body size stuck state = .ok result := by
  rw [loop_eq shrinks state, round]

theorem loop_error (shrinks : Shrinks body size stuck) {fault : Fault}
    (round : body state = .error fault) : loop body size stuck state = .error fault := by
  rw [loop_eq shrinks state, round]

/-- What every round keeps holds until the rounds end. -/
theorem iterate_invariant {Inv : State → Prop} {Post : Result → Prop} {fuel : Nat}
    (again : ∀ state next, Inv state → body state = .ok (.again next) → Inv next)
    (done : ∀ state result, Inv state → body state = .ok (.done result) → Post result)
    (holds : Inv state) (ended : iterate body stuck fuel state = .ok result) : Post result := by
  induction fuel generalizing state with
  | zero => cases ended
  | succ fuel ih =>
      rw [iterate] at ended
      cases round : body state with
      | error fault =>
          rw [round] at ended
          cases ended
      | ok outcome =>
          rw [round] at ended
          cases outcome with
          | done result' =>
              obtain rfl := Except.ok.inj ended
              exact done state _ holds round
          | again next => exact ih (again state next holds round) ended

/-- What every round keeps holds until the loop ends. -/
theorem loop_invariant {Inv : State → Prop} {Post : Result → Prop}
    (again : ∀ state next, Inv state → body state = .ok (.again next) → Inv next)
    (done : ∀ state result, Inv state → body state = .ok (.done result) → Post result)
    (holds : Inv state) (ended : loop body size stuck state = .ok result) : Post result :=
  iterate_invariant again done holds ended

/-- A loop fails like one of its rounds. -/
theorem loop_fault {Inv : State → Prop} {Allowed : Fault → Prop} {fault : Fault}
    (shrinks : Shrinks body size stuck)
    (again : ∀ state next, Inv state → body state = .ok (.again next) → Inv next)
    (fails : ∀ state fault, Inv state → body state = .error fault → Allowed fault)
    (holds : Inv state) (failed : loop body size stuck state = .error fault) : Allowed fault := by
  induction bound : size state using Nat.strongRecOn generalizing state with
  | ind most ih =>
      rw [loop_eq shrinks] at failed
      cases round : body state with
      | error fault' =>
          rw [round] at failed
          obtain rfl := Except.error.inj failed
          exact fails state _ holds round
      | ok outcome =>
          rw [round] at failed
          cases outcome with
          | done result => cases failed
          | again next =>
              exact ih (size next) (bound ▸ shrinks.smaller state next round)
                (again state next holds round) failed rfl

/-- The outcome of a round, with its state and its result mapped. -/
def Round.map (onState : State → State') (onResult : Result → Result') :
    Round State Result → Round State' Result'
  | .again state => .again (onState state)
  | .done result => .done (onResult result)

/-- Loops whose rounds agree under a map, in as many rounds, agree. -/
theorem loop_map {body' : State' → Except Fault (Round State' Result')} {size' : State' → Nat}
    {onState : State → State'} {onResult : Result → Result'}
    (sizes : ∀ state, size' (onState state) = size state)
    (rounds : ∀ state, body' (onState state) = (body state).map (Round.map onState onResult))
    (state : State) :
    loop body' size' stuck (onState state) = (loop body size stuck state).map onResult := by
  unfold loop
  rw [sizes]
  generalize size state = fuel
  induction fuel generalizing state with
  | zero => rfl
  | succ fuel ih =>
      rw [iterate, iterate, rounds]
      cases round : body state with
      | error fault => rfl
      | ok outcome =>
          cases outcome with
          | done result => rfl
          | again next => exact ih next

/-- A loop whose rounds all are rounds of a second one ends where that one ends. -/
theorem loop_refines {body' : State → Except Fault (Round State Result')}
    {onResult : Result' → Result} {result' : Result'}
    (again : ∀ state next, body' state = .ok (.again next) → body state = .ok (.again next))
    (done : ∀ state result, body' state = .ok (.done result) →
      body state = .ok (.done (onResult result)))
    (ended : loop body' size stuck state = .ok result') :
    loop body size stuck state = .ok (onResult result') := by
  unfold loop at ended ⊢
  generalize size state = fuel at ended ⊢
  induction fuel generalizing state with
  | zero => cases ended
  | succ fuel ih =>
      cases round : body' state with
      | error fault =>
          rw [iterate_error round] at ended
          cases ended
      | ok outcome =>
          cases outcome with
          | again next =>
              rw [iterate_again round] at ended
              rw [iterate_again (again state next round)]
              exact ih ended
          | done result =>
              rw [iterate_done round] at ended
              obtain rfl := Except.ok.inj ended
              exact iterate_done (done state result round) fuel

/-- The states that rounds lead to. -/
inductive Reaches (body : State → Except Fault (Round State Result)) (first : State) : State → Prop
  | start : Reaches body first first
  | again {state next : State} (reached : Reaches body first state)
      (round : body state = .ok (.again next)) : Reaches body first next

theorem Reaches.head {last : State} (round : body state = .ok (.again next))
    (reached : Reaches body next last) : Reaches body state last := by
  induction reached with
  | start => exact .again .start round
  | again _ later ih => exact .again ih later

theorem Reaches.trans {middle last : State} (first : Reaches body state middle)
    (second : Reaches body middle last) : Reaches body state last := by
  induction second with
  | start => exact first
  | again _ round ih => exact .again ih round

/-- A loop goes on from every state that its rounds lead to. -/
theorem Reaches.loop_eq {last : State} (shrinks : Shrinks body size stuck)
    (reached : Reaches body state last) :
    loop body size stuck state = loop body size stuck last := by
  induction reached with
  | start => rfl
  | again _ round ih => exact ih.trans (loop_again shrinks round)

/-- A loop has a result exactly if no round that it reaches fails. -/
theorem exists_loop_ok_iff (shrinks : Shrinks body size stuck) (state : State) :
    (∃ result, loop body size stuck state = .ok result) ↔
      ∀ reached, Reaches body state reached → ∃ outcome, body reached = .ok outcome := by
  constructor
  · rintro ⟨result, ended⟩ reached path
    have later : loop body size stuck reached = .ok result :=
      (path.loop_eq shrinks).symm.trans ended
    cases round : body reached with
    | error fault =>
        rw [loop_error shrinks round] at later
        cases later
    | ok outcome => exact ⟨outcome, rfl⟩
  · intro safe
    induction bound : size state using Nat.strongRecOn generalizing state with
    | ind most ih =>
        obtain ⟨outcome, round⟩ := safe state .start
        cases outcome with
        | done result => exact ⟨result, loop_done shrinks round⟩
        | again next =>
            obtain ⟨result, ended⟩ := ih (size next) (bound ▸ shrinks.smaller state next round) next
              (fun reached path => safe reached (.head round path)) rfl
            exact ⟨result, (loop_again shrinks round).trans ended⟩

/-- What holds of every state that rounds lead to. -/
def Throughout (body : State → Except Fault (Round State Result)) (holds : State → Prop)
    (first : State) : Prop :=
  ∀ reached, Reaches body first reached → holds reached

theorem throughout_again {holds : State → Prop} (round : body state = .ok (.again next)) :
    Throughout body holds state ↔ holds state ∧ Throughout body holds next := by
  constructor
  · intro all
    exact ⟨all state .start, fun reached path => all reached (.head round path)⟩
  · rintro ⟨here, later⟩ reached path
    have step : reached = state ∨ Reaches body next reached := by
      induction path with
      | start => exact .inl rfl
      | again path other ih =>
          rcases ih with rfl | reached
          · obtain rfl := Round.again.inj (Except.ok.inj (round.symm.trans other))
            exact .inr .start
          · exact .inr (.again reached other)
    rcases step with rfl | path
    · exact here
    · exact later reached path

theorem throughout_last {holds : State → Prop} (round : ∀ next, body state ≠ .ok (.again next)) :
    Throughout body holds state ↔ holds state := by
  constructor
  · intro all
    exact all state .start
  · intro here reached path
    have same : reached = state := by
      induction path with
      | start => rfl
      | again path other ih =>
          rw [ih] at other
          exact absurd other (round _)
    rw [same]
    exact here

end Trunk.Loop
