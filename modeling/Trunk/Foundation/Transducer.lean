import Mathlib.Data.List.Basic

/-! # Transducers

A transducer reads symbols one by one and answers each of them, or fails. A run feeds it a list of
symbols (`Trunk.Transducer.transduce`), and runs over the pieces of a list, one after the other, are
the run over the whole of it (`Trunk.Transducer.transducePieces_flatten`). A second transducer takes
the answers back where each of its steps takes one step back and reaches the same state
(`Trunk.Transducer.transduce_inverse`).
-/

namespace Trunk.Transducer

variable {State Symbol Answer : Type*}

/-- The answers to a list of symbols, and the state behind them. -/
def transduce (step : State → Symbol → Option (State × Answer)) :
    State → List Symbol → Option (State × List Answer)
  | state, [] => some (state, [])
  | state, symbol :: symbols => do
      let (state, answer) ← step state symbol
      let (state, answers) ← transduce step state symbols
      return (state, answer :: answers)

/-- The answers to several lists, one after the other. -/
def transducePieces (step : State → Symbol → Option (State × Answer)) :
    State → List (List Symbol) → Option (State × List (List Answer)) :=
  transduce (transduce step)

variable {step : State → Symbol → Option (State × Answer)} {state state' : State}
  {symbols : List Symbol} {answers : List Answer}

theorem transduce_cons {symbol : Symbol} :
    transduce step state (symbol :: symbols) = some (state', answers) ↔
      ∃ next answer rest, step state symbol = some (next, answer) ∧
        transduce step next symbols = some (state', rest) ∧ answers = answer :: rest := by
  constructor
  · intro ran
    rw [transduce] at ran
    obtain ⟨⟨next, answer⟩, stepped, ran⟩ := Option.bind_eq_some_iff.mp ran
    obtain ⟨⟨last, rest⟩, went, ended⟩ := Option.bind_eq_some_iff.mp ran
    obtain ⟨rfl, rfl⟩ := Prod.mk.inj (Option.some.inj ended)
    exact ⟨next, answer, rest, stepped, went, rfl⟩
  · rintro ⟨next, answer, rest, stepped, went, rfl⟩
    rw [transduce, stepped]
    exact congrArg (fun ran => ran >>= fun (last : State × List Answer) =>
      some (last.1, answer :: last.2)) went

theorem transduce_append (first second : List Symbol) :
    transduce step state (first ++ second) =
      (transduce step state first).bind fun front =>
        (transduce step front.1 second).map fun back => (back.1, front.2 ++ back.2) := by
  induction first generalizing state with
  | nil =>
      rw [List.nil_append]
      change _ = Option.map _ (transduce step state second)
      cases transduce step state second with
      | none => rfl
      | some back => rfl
  | cons symbol first ih =>
      rw [List.cons_append, transduce, transduce]
      cases step state symbol with
      | none => rfl
      | some stepped =>
          change (transduce step stepped.1 (first ++ second)).bind _ = Option.bind (Option.bind
            (transduce step stepped.1 first) _) _
          rw [ih]
          cases transduce step stepped.1 first with
          | none => rfl
          | some front =>
              change Option.bind (Option.map _ (transduce step front.1 second)) _ =
                Option.map _ (transduce step front.1 second)
              cases transduce step front.1 second with
              | none => rfl
              | some back => rfl

/-- Where pieces are cut makes no difference. -/
theorem transducePieces_flatten (state : State) (pieces : List (List Symbol)) :
    transduce step state pieces.flatten =
      (transducePieces step state pieces).map fun ran => (ran.1, ran.2.flatten) := by
  induction pieces generalizing state with
  | nil => rfl
  | cons piece pieces ih =>
      rw [List.flatten_cons, transduce_append, transducePieces, transduce]
      cases transduce step state piece with
      | none => rfl
      | some front =>
          have later := ih front.1
          rw [transducePieces] at later
          change Option.map _ (transduce step front.1 pieces.flatten) = Option.map _
            (Option.bind (transduce (transduce step) front.1 pieces) _)
          rw [later]
          cases transduce (transduce step) front.1 pieces with
          | none => rfl
          | some back => rfl

/-- A transducer whose steps keep an invariant and do not fail under it has answers. -/
theorem transduce_isSome (Inv : State → Prop)
    (goes : ∀ state symbol, Inv state → ∃ next answer,
      step state symbol = some (next, answer) ∧ Inv next)
    (holds : Inv state) (symbols : List Symbol) :
    ∃ last answers, transduce step state symbols = some (last, answers) ∧ Inv last := by
  induction symbols generalizing state with
  | nil => exact ⟨state, [], rfl, holds⟩
  | cons symbol symbols ih =>
      obtain ⟨next, answer, stepped, kept⟩ := goes state symbol holds
      obtain ⟨last, answers, ran, ended⟩ := ih kept
      exact ⟨last, answer :: answers, transduce_cons.mpr ⟨next, answer, answers, stepped, ran, rfl⟩,
        ended⟩

/-- Steps that are taken back one by one, in the same states, are taken back together. -/
theorem transduce_inverse {back : State → Answer → Option (State × Symbol)}
    (inverse : ∀ state next symbol answer, step state symbol = some (next, answer) →
      back state answer = some (next, symbol))
    (ran : transduce step state symbols = some (state', answers)) :
    transduce back state answers = some (state', symbols) := by
  induction symbols generalizing state answers with
  | nil =>
      obtain ⟨rfl, rfl⟩ := Prod.mk.inj (Option.some.inj ran)
      rfl
  | cons symbol symbols ih =>
      obtain ⟨next, answer, rest, stepped, went, rfl⟩ := transduce_cons.mp ran
      exact transduce_cons.mpr ⟨next, symbol, symbols, inverse _ _ _ _ stepped, ih went, rfl⟩

end Trunk.Transducer
