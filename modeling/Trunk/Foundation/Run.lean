import Mathlib.Logic.Basic

/-! # Runs of deterministic systems

A system is a step function over a state and an input. A run feeds it a list of
inputs. Two rules carry every whole-run result: an invariant kept by one step is
kept by a run (`Trunk.Run.run_invariant`), and a relation to a second system kept
by one step is kept by a run of both (`Trunk.Run.run_simulation`). The guarded
forms are for steps that are only promised on the inputs a caller may use.

A system whose inputs may be out of turn is run by `Trunk.Run.attempt`, with an
invariant rule of its own (`Trunk.Run.attempt_invariant`). One that answers every
input, and may fail, is run by `Trunk.Run.exec`; it refines a total one whose answers
it gives (`Trunk.Run.exec_simulation`). What is asked of every step of such a run is shown one
step at a time (`Trunk.Run.throughout_of_granted`).
-/

namespace Trunk.Run

variable {State Abstract Input : Type*}

/-- The state after feeding the inputs in order. -/
def run (step : State → Input → State) (state : State) (inputs : List Input) : State :=
  inputs.foldl step state

@[simp] theorem run_nil (step : State → Input → State) (state : State) :
    run step state [] = state := rfl

@[simp] theorem run_cons (step : State → Input → State) (state : State) (input : Input)
    (inputs : List Input) :
    run step state (input :: inputs) = run step (step state input) inputs := rfl

theorem run_append (step : State → Input → State) (state : State) (first second : List Input) :
    run step state (first ++ second) = run step (run step state first) second :=
  List.foldl_append

/-- Every input of the run meets the guard at the state it is fed to. -/
def Guarded (step : State → Input → State) (guard : State → Input → Prop) :
    State → List Input → Prop
  | _, [] => True
  | state, input :: inputs => guard state input ∧ Guarded step guard (step state input) inputs

theorem guarded_append (step : State → Input → State) (guard : State → Input → Prop)
    (state : State) (first second : List Input) :
    Guarded step guard state (first ++ second) ↔
      Guarded step guard state first ∧ Guarded step guard (run step state first) second := by
  induction first generalizing state with
  | nil => simp only [List.nil_append, Guarded, run_nil, true_and]
  | cons input inputs ih =>
      simp only [List.cons_append, Guarded, run_cons, ih, and_assoc]

/-- An invariant kept by every step holds after every run. -/
theorem run_invariant {step : State → Input → State} {Inv : State → Prop}
    (keeps : ∀ state input, Inv state → Inv (step state input))
    (inputs : List Input) (state : State) (holds : Inv state) : Inv (run step state inputs) := by
  induction inputs generalizing state with
  | nil => exact holds
  | cons input inputs ih => exact ih (step state input) (keeps state input holds)

/-- An invariant kept by every step with an allowed input holds after every run of allowed
inputs. -/
theorem run_invariant_of_mem {step : State → Input → State} {Inv : State → Prop}
    {allowed : Input → Prop}
    (keeps : ∀ state input, Inv state → allowed input → Inv (step state input))
    (inputs : List Input) (state : State) (holds : Inv state)
    (all : ∀ input ∈ inputs, allowed input) : Inv (run step state inputs) := by
  induction inputs generalizing state with
  | nil => exact holds
  | cons input inputs ih =>
      refine ih _ (keeps state input holds (all input (List.mem_cons_self ..))) ?_
      exact fun other member => all other (List.mem_cons_of_mem _ member)

/-- A relation kept by every step of two systems fed the same input holds after every
run. -/
theorem run_simulation {step : State → Input → State} {abstractStep : Abstract → Input → Abstract}
    {Related : State → Abstract → Prop}
    (keeps : ∀ state abstract input, Related state abstract →
      Related (step state input) (abstractStep abstract input))
    (inputs : List Input) (state : State) (abstract : Abstract)
    (related : Related state abstract) :
    Related (run step state inputs) (run abstractStep abstract inputs) := by
  induction inputs generalizing state abstract with
  | nil => exact related
  | cons input inputs ih => exact ih _ _ (keeps state abstract input related)

/-- A relation kept by every guarded step of two systems fed the same input
holds after every guarded run. The guard is read at the concrete state. -/
theorem guarded_simulation {step : State → Input → State} {guard : State → Input → Prop}
    {abstractStep : Abstract → Input → Abstract} {Related : State → Abstract → Prop}
    (keeps : ∀ state abstract input, Related state abstract → guard state input →
      Related (step state input) (abstractStep abstract input))
    (inputs : List Input) (state : State) (abstract : Abstract) (related : Related state abstract)
    (allowed : Guarded step guard state inputs) :
    Related (run step state inputs) (run abstractStep abstract inputs) := by
  induction inputs generalizing state abstract with
  | nil => exact related
  | cons input inputs ih =>
      exact ih _ _ (keeps state abstract input related allowed.1) allowed.2

/-- The state after feeding inputs that each may be out of turn; there is none if one
is. -/
def attempt (step : State → Input → Option State) : State → List Input → Option State
  | state, [] => some state
  | state, input :: inputs => (step state input).bind fun next => attempt step next inputs

/-- Every input of the run meets the guard at the state it is fed to. -/
def Met (step : State → Input → Option State) (guard : State → Input → Prop) :
    State → List Input → Prop
  | _, [] => True
  | state, input :: inputs =>
      guard state input ∧ (step state input).elim True fun next => Met step guard next inputs

/-- Where every input is allowed, every run is. -/
theorem met_true (step : State → Input → Option State) (state : State) (inputs : List Input) :
    Met step (fun _ _ => True) state inputs := by
  induction inputs generalizing state with
  | nil => trivial
  | cons input inputs ih =>
      refine ⟨trivial, ?_⟩
      cases step state input with
      | none => trivial
      | some next => exact ih next

/-- A condition on the inputs alone joins the guard. -/
theorem Met.and_mem {step : State → Input → Option State} {guard : State → Input → Prop}
    {condition : Input → Prop} {inputs : List Input} {state : State}
    (met : Met step guard state inputs) (all : ∀ input ∈ inputs, condition input) :
    Met step (fun state input => guard state input ∧ condition input) state inputs := by
  induction inputs generalizing state with
  | nil => trivial
  | cons input inputs ih =>
      have later := met.2
      refine ⟨⟨met.1, all input (List.mem_cons_self ..)⟩, ?_⟩
      cases stepped : step state input with
      | none => trivial
      | some next =>
          rw [stepped] at later
          exact ih later fun other member => all other (List.mem_cons_of_mem _ member)

/-- An invariant kept by every guarded step that is taken holds where a guarded run
ends. -/
theorem attempt_invariant {step : State → Input → Option State} {guard : State → Input → Prop}
    {Inv : State → Prop}
    (keeps : ∀ state input next, Inv state → guard state input → step state input = some next →
      Inv next)
    (inputs : List Input) (state last : State) (holds : Inv state)
    (allowed : Met step guard state inputs) (ran : attempt step state inputs = some last) :
    Inv last := by
  induction inputs generalizing state with
  | nil =>
      obtain rfl := Option.some.inj ran
      exact holds
  | cons input inputs ih =>
      obtain ⟨next, stepped, rest⟩ := Option.bind_eq_some_iff.mp ran
      have later := allowed.2
      rw [stepped] at later
      exact ih next (keeps state input next holds allowed.1 stepped) later rest

/-- Where every guarded step can be taken and keeps the invariant, a guarded run goes
through and ends with it. -/
theorem attempt_total {step : State → Input → Option State} {guard : State → Input → Prop}
    {Inv : State → Prop}
    (steps : ∀ state input, Inv state → guard state input →
      ∃ next, step state input = some next ∧ Inv next)
    (inputs : List Input) (state : State) (holds : Inv state)
    (allowed : Met step guard state inputs) :
    ∃ last, attempt step state inputs = some last ∧ Inv last := by
  induction inputs generalizing state with
  | nil => exact ⟨state, rfl, holds⟩
  | cons input inputs ih =>
      obtain ⟨next, stepped, kept⟩ := steps state input holds allowed.1
      have later := allowed.2
      rw [stepped] at later
      obtain ⟨last, ran, end_⟩ := ih next kept later
      refine ⟨last, ?_, end_⟩
      rw [attempt, stepped, Option.bind_some]
      exact ran

/-- The beginning of a guarded run is guarded. -/
theorem Met.of_append {step : State → Input → Option State} {guard : State → Input → Prop}
    {first second : List Input} {state : State}
    (met : Met step guard state (first ++ second)) : Met step guard state first := by
  induction first generalizing state with
  | nil => trivial
  | cons input inputs ih =>
      have later := met.2
      refine ⟨met.1, ?_⟩
      cases stepped : step state input with
      | none => trivial
      | some next =>
          rw [stepped] at later
          exact ih later

/-- Where every step appends to a log only what its state and its input allow, each entry that a run
appends was allowed at some step of it. -/
theorem attempt_log {step : State → Input → Option State} {Entry : Type*}
    {allowed : State → Input → Entry → Prop} (log : State → List Entry)
    (appends : ∀ state input next, step state input = some next →
      ∃ out, log next = log state ++ out ∧ ∀ entry ∈ out, allowed state input entry)
    (inputs : List Input) (state last : State) (ran : attempt step state inputs = some last) :
    ∃ out, log last = log state ++ out ∧ ∀ entry ∈ out, ∃ early input late mid,
      inputs = early ++ input :: late ∧ attempt step state early = some mid ∧
        allowed mid input entry := by
  induction inputs generalizing state with
  | nil =>
      obtain rfl := Option.some.inj ran
      exact ⟨[], (List.append_nil _).symm, fun _ member => absurd member List.not_mem_nil⟩
  | cons input inputs ih =>
      obtain ⟨next, stepped, rest⟩ := Option.bind_eq_some_iff.mp ran
      obtain ⟨out, appended, first⟩ := appends state input next stepped
      obtain ⟨out', appended', later⟩ := ih next rest
      refine ⟨out ++ out', by rw [appended', appended, List.append_assoc], ?_⟩
      intro entry member
      rcases List.mem_append.mp member with here | there
      · exact ⟨[], input, inputs, state, rfl, rfl, first entry here⟩
      · obtain ⟨early, other, late, mid, split, reached, ok⟩ := later entry there
        refine ⟨input :: early, other, late, mid, congrArg (input :: ·) split, ?_, ok⟩
        rw [attempt, stepped, Option.bind_some]
        exact reached

/-- Where a guarded step fails exactly on a bad input, a guarded run goes through exactly if no input
of it is bad. -/
theorem attempt_ne_none_iff {step : State → Input → Option State}
    {guard bad : State → Input → Prop} {Inv : State → Prop}
    (keeps : ∀ state input next, Inv state → guard state input → step state input = some next →
      Inv next)
    (fails : ∀ state input, Inv state → guard state input →
      (step state input = none ↔ bad state input))
    (inputs : List Input) (state : State) (holds : Inv state)
    (allowed : Met step guard state inputs) :
    attempt step state inputs ≠ none ↔
      Met step (fun state input => ¬ bad state input) state inputs := by
  induction inputs generalizing state with
  | nil => exact iff_of_true (Option.some_ne_none state) trivial
  | cons input inputs ih =>
      have here := fails state input holds allowed.1
      have later := allowed.2
      rw [attempt, Met]
      cases stepped : step state input with
      | none => exact iff_of_false (fun absurd => absurd rfl) fun good => good.1 (here.mp stepped)
      | some next =>
          rw [stepped] at later here
          have good : ¬ bad state input := fun absurd => (Option.some_ne_none next) (here.mpr absurd)
          rw [Option.bind_some, and_iff_right good]
          exact ih next (keeps state input next holds allowed.1 stepped) later

/-- An invariant that the steps with the inputs of a run keep holds where the run ends. -/
theorem foldlM_invariant {step : State → Input → Option State} {Inv : State → Prop}
    {inputs : List Input} {state last : State}
    (keeps : ∀ input ∈ inputs, ∀ state next, Inv state → step state input = some next → Inv next)
    (holds : Inv state) (ran : inputs.foldlM step state = some last) : Inv last := by
  induction inputs generalizing state with
  | nil =>
      obtain rfl := Option.some.inj ran
      exact holds
  | cons input inputs ih =>
      rw [List.foldlM_cons] at ran
      obtain ⟨next, stepped, rest⟩ := Option.bind_eq_some_iff.mp ran
      exact ih (fun other member => keeps other (List.mem_cons_of_mem _ member))
        (keeps input (List.mem_cons_self ..) state next holds stepped) rest

variable {Output Request Answer : Type*}

/-- The answers of a system that may fail, and the state it ends in. -/
def exec (step : State → Input → Option (Output × State)) :
    State → List Input → Option (List Output × State)
  | state, [] => some ([], state)
  | state, input :: inputs => do
      let (output, next) ← step state input
      let (outputs, last) ← exec step next inputs
      return (output :: outputs, last)

/-- Every input of the run meets the guard at the state it is fed to. -/
def Granted (step : State → Input → Option (Output × State)) (guard : State → Input → Prop) :
    State → List Input → Prop
  | _, [] => True
  | state, input :: inputs =>
      guard state input ∧ ∀ result ∈ step state input, Granted step guard result.2 inputs

/-- Where every input is allowed, every run is. -/
theorem granted_true (step : State → Input → Option (Output × State)) (state : State)
    (inputs : List Input) : Granted step (fun _ _ => True) state inputs := by
  induction inputs generalizing state with
  | nil => trivial
  | cons input inputs ih => exact ⟨trivial, fun result _ => ih result.2⟩

instance decidableGranted (step : State → Input → Option (Output × State))
    (guard : State → Input → Prop) [∀ state input, Decidable (guard state input)] :
    (state : State) → (inputs : List Input) → Decidable (Granted step guard state inputs)
  | _, [] => inferInstanceAs (Decidable True)
  | state, input :: inputs =>
      haveI (next : State) : Decidable (Granted step guard next inputs) :=
        decidableGranted step guard next inputs
      inferInstanceAs (Decidable (guard state input ∧
        ∀ result ∈ step state input, Granted step guard result.2 inputs))

/-- Every step of the run is answered, and each does what is asked of a step. -/
def Throughout (step : State → Input → Option (Output × State))
    (Good : State → Input → Output → State → Prop) : State → List Input → Prop
  | _, [] => True
  | state, input :: inputs =>
      ∃ output next, step state input = some (output, next) ∧ Good state input output next ∧
        Throughout step Good next inputs

/-- Where every guarded step is answered, does what is asked of it and keeps the invariant, every
step of a guarded run does so. -/
theorem throughout_of_granted {step : State → Input → Option (Output × State)}
    {guard : State → Input → Prop} {Good : State → Input → Output → State → Prop}
    {Inv : State → Prop}
    (steps : ∀ state input, Inv state → guard state input →
      ∃ output next, step state input = some (output, next) ∧ Good state input output next ∧
        Inv next)
    (inputs : List Input) (state : State) (holds : Inv state)
    (granted : Granted step guard state inputs) : Throughout step Good state inputs := by
  induction inputs generalizing state with
  | nil => trivial
  | cons input inputs ih =>
      obtain ⟨output, next, stepped, good, kept⟩ := steps state input holds granted.1
      exact ⟨output, next, stepped, good, ih next kept (granted.2 (output, next) stepped)⟩

/-- Where a step is answered and does what is asked of it exactly if it meets the guard, a run does so
throughout exactly if it meets the guard throughout. -/
theorem throughout_iff_granted {step : State → Input → Option (Output × State)}
    {guard : State → Input → Prop} {Good : State → Input → Output → State → Prop}
    (steps : ∀ state input, (∃ output next, step state input = some (output, next) ∧
      Good state input output next) ↔ guard state input)
    (inputs : List Input) (state : State) :
    Throughout step Good state inputs ↔ Granted step guard state inputs := by
  induction inputs generalizing state with
  | nil => exact Iff.rfl
  | cons input inputs ih =>
      constructor
      · rintro ⟨output, next, stepped, good, rest⟩
        refine ⟨(steps state input).mp ⟨output, next, stepped, good⟩, ?_⟩
        intro result answered
        rw [stepped] at answered
        obtain rfl := Option.some.inj answered
        exact (ih next).mp rest
      · rintro ⟨met, rest⟩
        obtain ⟨output, next, stepped, good⟩ := (steps state input).mpr met
        exact ⟨output, next, stepped, good, (ih next).mpr (rest _ stepped)⟩

/-- The answers of a system that does not fail, and the state it ends in. -/
def answers (step : Abstract → Request → Answer × Abstract) :
    Abstract → List Request → List Answer × Abstract
  | abstract, [] => ([], abstract)
  | abstract, request :: requests =>
      let rest := answers step (step abstract request).2 requests
      ((step abstract request).1 :: rest.1, rest.2)

/-- A system that gives, at every guarded step, the answer of a second one it stays related to, does
so in every guarded run, and never fails. The guard is read at the state of the second one. -/
theorem guarded_exec_simulation {step : State → Input → Option (Output × State)}
    {abstractStep : Abstract → Request → Answer × Abstract} {Related : State → Abstract → Prop}
    {guard : Abstract → Request → Prop} (request : Input → Request) (reply : Answer → Output)
    (keeps : ∀ state abstract input, Related state abstract → guard abstract (request input) →
      ∃ next, step state input = some (reply (abstractStep abstract (request input)).1, next) ∧
        Related next (abstractStep abstract (request input)).2)
    (inputs : List Input) (state : State) (abstract : Abstract)
    (related : Related state abstract)
    (allowed : Guarded (fun abstract request => (abstractStep abstract request).2) guard abstract
      (inputs.map request)) :
    ∃ last, exec step state inputs =
        some ((answers abstractStep abstract (inputs.map request)).1.map reply, last) ∧
      Related last (answers abstractStep abstract (inputs.map request)).2 := by
  induction inputs generalizing state abstract with
  | nil => exact ⟨state, rfl, related⟩
  | cons input inputs ih =>
      obtain ⟨next, stepped, nextRelated⟩ := keeps state abstract input related allowed.1
      obtain ⟨last, ran, lastRelated⟩ := ih next _ nextRelated allowed.2
      refine ⟨last, ?_, lastRelated⟩
      simp only [exec, stepped, ran, List.map_cons, answers, Option.bind_eq_bind, Option.bind_some,
        Option.pure_def]

/-- Where every input is allowed, every run is. -/
theorem guarded_true (step : State → Input → State) (state : State) (inputs : List Input) :
    Guarded step (fun _ _ => True) state inputs := by
  induction inputs generalizing state with
  | nil => trivial
  | cons input inputs ih => exact ⟨trivial, ih _⟩

/-- A system that gives, at every step, the answer of a second one it stays related
to, does so in every run, and never fails. -/
theorem exec_simulation {step : State → Input → Option (Output × State)}
    {abstractStep : Abstract → Request → Answer × Abstract} {Related : State → Abstract → Prop}
    (request : Input → Request) (reply : Answer → Output)
    (keeps : ∀ state abstract input, Related state abstract →
      ∃ next, step state input = some (reply (abstractStep abstract (request input)).1, next) ∧
        Related next (abstractStep abstract (request input)).2)
    (inputs : List Input) (state : State) (abstract : Abstract)
    (related : Related state abstract) :
    ∃ last, exec step state inputs =
        some ((answers abstractStep abstract (inputs.map request)).1.map reply, last) ∧
      Related last (answers abstractStep abstract (inputs.map request)).2 := by
  refine guarded_exec_simulation request reply ?_ inputs state abstract related
    (guarded_true _ abstract _)
  intro state abstract input related _
  exact keeps state abstract input related

end Trunk.Run
