import Mathlib.Logic.Relation

/-!
Deterministic machines: `step` gives the next state, or none where the machine halts.
A run may have to meet a condition before every step. A run that meets it and halts has
passed through every state there is to reach.
-/

namespace AsrServer.Machine

variable {State : Type*} {step : State → Option State}

inductive RunWhile (step : State → Option State) (meets : State → Prop) : State → State → Prop where
  | done (state : State) : RunWhile step meets state state
  | next {before after last : State} : meets before → step before = some after →
      RunWhile step meets after last → RunWhile step meets before last

abbrev Run (step : State → Option State) : State → State → Prop := RunWhile step fun _ => True

section Runs

variable {meets : State → Prop} {first middle last : State}

theorem RunWhile.trans (left : RunWhile step meets first middle)
    (right : RunWhile step meets middle last) : RunWhile step meets first last := by
  induction left with
  | done => exact right
  | next met moved _ ih => exact .next met moved (ih right)

theorem RunWhile.run (ran : RunWhile step meets first last) : Run step first last := by
  induction ran with
  | done => exact .done _
  | next _ moved _ ih => exact .next trivial moved ih

theorem RunWhile.rest {other : State} (ran : RunWhile step meets first last)
    (halts : step last = none) (reached : Run step first other) :
    RunWhile step meets other last := by
  induction reached with
  | done => exact ran
  | next _ moved _ ih =>
      cases ran with
      | done =>
          rw [halts] at moved
          cases moved
      | next _ same later =>
          rw [same] at moved
          cases moved
          exact ih later

theorem RunWhile.meets_all {other : State} (ran : RunWhile step meets first last)
    (halts : step last = none) (ends : meets last) (reached : Run step first other) :
    meets other := by
  cases ran.rest halts reached with
  | done => exact ends
  | next met _ _ => exact met

end Runs

end AsrServer.Machine
