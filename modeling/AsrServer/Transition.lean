import Mathlib.Algebra.BigOperators.Group.Finset.Piecewise
import Mathlib.Data.Fintype.BigOperators
import Mathlib.Algebra.Order.BigOperators.Group.Finset

/-!
Executable transition systems. `step` gives the one successor of a state under
an action, or none where the action is not enabled. Reachability is relative
to a condition on the state before a step and the action taken: the runs whose
steps all meet it. The unconditional runs are the case of the condition that
always holds.
-/

namespace AsrServer.Transition

variable {State Action : Type*}

inductive ReachableWhile (step : State → Action → Option State)
    (initial : State → Prop) (meets : State → Action → Prop) : State → Prop where
  | start {state} : initial state → ReachableWhile step initial meets state
  | next {before after} (action : Action) :
      ReachableWhile step initial meets before → meets before action →
      step before action = some after → ReachableWhile step initial meets after

abbrev Reachable (step : State → Action → Option State)
    (initial : State → Prop) : State → Prop :=
  ReachableWhile step initial fun _ _ => True

section Runs
variable {step : State → Action → Option State} {initial : State → Prop}
  {meets : State → Action → Prop}

theorem ReachableWhile.reachable {state : State}
    (reached : ReachableWhile step initial meets state) :
    Reachable step initial state := by
  induction reached with
  | start begins => exact .start begins
  | next action _ _ moved ih => exact .next action ih trivial moved

/-- The invariant rule. A step may use that the state before it was reached,
so an invariant already established carries the next one. -/
theorem ReachableWhile.invariant (holds : State → Prop)
    (starts : ∀ state, initial state → holds state)
    (keeps : ∀ before action after, ReachableWhile step initial meets before →
      meets before action → holds before → step before action = some after → holds after)
    {state : State} (reached : ReachableWhile step initial meets state) :
    holds state := by
  induction reached with
  | start begins => exact starts _ begins
  | next action earlier met moved ih => exact keeps _ action _ earlier met ih moved

/-- Run a list of actions, stopping at the first that is not enabled. -/
def exec (step : State → Action → Option State) : State → List Action → Option State
  | state, [] => some state
  | state, action :: rest => (step state action).bind fun after => exec step after rest

theorem exec_reachable {state after : State} (reached : Reachable step initial state)
    (actions : List Action) (ran : exec step state actions = some after) :
    Reachable step initial after := by
  induction actions generalizing state with
  | nil =>
      cases ran
      exact reached
  | cons action rest ih =>
      obtain ⟨middle, moved, later⟩ := Option.bind_eq_some_iff.mp ran
      exact ih (.next action reached trivial moved) later

def execWhile (step : State → Action → Option State) (check : State → Action → Bool) :
    State → List Action → Option State
  | state, [] => some state
  | state, action :: rest =>
      if check state action then
        (step state action).bind fun after => execWhile step check after rest
      else none

theorem execWhile_reaches (check : State → Action → Bool)
    (sound : ∀ before action, ReachableWhile step initial meets before →
      check before action = true → meets before action)
    {state : State} (reached : ReachableWhile step initial meets state)
    (actions : List Action) (shown : State → Bool)
    (ran : (execWhile step check state actions).any shown = true) :
    ∃ after, ReachableWhile step initial meets after ∧ shown after = true := by
  induction actions generalizing state with
  | nil => exact ⟨state, reached, ran⟩
  | cons action rest ih =>
      unfold execWhile at ran
      split at ran
      · rename_i passes
        cases moved : step state action with
        | none => simp [moved] at ran
        | some after =>
            rw [moved, Option.bind_some] at ran
            exact ih (.next action reached (sound state action reached passes) moved) ran
      · cases ran

/-- A run that can be checked shows a reachable state. -/
theorem exec_reaches {state : State} (reached : Reachable step initial state)
    (actions : List Action) (check : State → Bool)
    (ran : (exec step state actions).any check = true) :
    ∃ after, Reachable step initial after ∧ check after = true := by
  cases result : exec step state actions with
  | none => simp [result] at ran
  | some after =>
      rw [result] at ran
      exact ⟨after, exec_reachable reached actions result, ran⟩

/-- A run from one state to another whose steps all meet the condition. -/
def RanWhile (step : State → Action → Option State) (meets : State → Action → Prop) :
    State → List Action → State → Prop
  | first, [], last => first = last
  | first, action :: rest, last => meets first action ∧
      ∃ next, step first action = some next ∧ RanWhile step meets next rest last

theorem exec_ran {first last : State} {actions : List Action}
    (ran : exec step first actions = some last) :
    RanWhile step (fun _ _ => True) first actions last := by
  induction actions generalizing first with
  | nil =>
      cases ran
      rfl
  | cons action rest ih =>
      obtain ⟨next, moved, later⟩ := Option.bind_eq_some_iff.mp ran
      exact ⟨trivial, next, moved, ih later⟩

theorem RanWhile.bounded (potential : State → Nat) (holds : State → Prop)
    (keeps : ∀ before action after, holds before → step before action = some after → holds after)
    (lowers : ∀ before action after, holds before → meets before action →
      step before action = some after → potential after < potential before)
    {first last : State} {actions : List Action} (start : holds first)
    (ran : RanWhile step meets first actions last) :
    actions.length + potential last ≤ potential first := by
  induction actions generalizing first with
  | nil =>
      cases ran
      exact Nat.le_of_eq (Nat.zero_add _)
  | cons action rest ih =>
      obtain ⟨met, next, moved, later⟩ := ran
      have lower := lowers first action next start met moved
      have bound := ih (keeps first action next start moved) later
      rw [List.length_cons]
      omega

theorem RanWhile.ends (potential : State → Nat) (holds : State → Prop)
    (keeps : ∀ before action after, holds before → step before action = some after → holds after)
    (lowers : ∀ before action after, holds before → meets before action →
      step before action = some after → potential after < potential before)
    (first : State) (start : holds first) :
    ∃ actions last, RanWhile step meets first actions last ∧
      ∀ action, meets last action → step last action = none := by
  by_cases halts : ∀ action, meets first action → step first action = none
  · exact ⟨[], first, rfl, halts⟩
  · push Not at halts
    obtain ⟨action, met, moves⟩ := halts
    obtain ⟨next, moved⟩ := Option.ne_none_iff_exists'.mp moves
    have lower := lowers first action next start met moved
    obtain ⟨rest, last, ran, stuck⟩ :=
      RanWhile.ends potential holds keeps lowers next (keeps first action next start moved)
    exact ⟨action :: rest, last, ⟨met, next, moved, ran⟩, stuck⟩
termination_by potential first

end Runs

/-! Threads are a finite index type; `places` says where each one stands. A
count over all threads moves only by what the updated thread contributes. -/
section Threads
variable {Thread Place : Type*} [Fintype Thread] [DecidableEq Thread]

omit [Fintype Thread] in
theorem update_cases {Value : Type*} (read : Place → Value) {places : Thread → Place}
    {thread other : Thread} {place : Place} {found : Value}
    (there : read (Function.update places thread place other) = found) :
    (other = thread ∧ read place = found) ∨ (other ≠ thread ∧ read (places other) = found) := by
  by_cases same : other = thread
  · subst same
    rw [Function.update_self] at there
    exact Or.inl ⟨rfl, there⟩
  · rw [Function.update_of_ne same] at there
    exact Or.inr ⟨same, there⟩

omit [Fintype Thread] in
theorem before_update {places : Thread → Place} {thread other : Thread} {place found : Place}
    (there : Function.update places thread place other = found) (differs : place ≠ found) :
    places other = found := by
  rcases update_cases id there with ⟨_, same⟩ | ⟨_, held⟩
  · exact absurd same differs
  · exact held

theorem sum_update (weight : Place → Nat) (places : Thread → Place)
    (thread : Thread) (place : Place) :
    (∑ other, weight (Function.update places thread place other)) + weight (places thread) =
      (∑ other, weight (places other)) + weight place := by
  have split (assign : Thread → Place) :
      ∑ other, weight (assign other) =
        weight (assign thread) + ∑ other ∈ Finset.univ.erase thread, weight (assign other) :=
    (Finset.add_sum_erase _ (fun other => weight (assign other)) (Finset.mem_univ thread)).symm
  have others : ∑ other ∈ Finset.univ.erase thread,
        weight (Function.update places thread place other) =
      ∑ other ∈ Finset.univ.erase thread, weight (places other) := by
    apply Finset.sum_congr rfl
    intro other member
    rw [Function.update_of_ne (Finset.ne_of_mem_erase member)]
  rw [split (Function.update places thread place), split places, others,
    Function.update_self]
  omega

omit [DecidableEq Thread] in
theorem weight_le_sum (weight : Place → Nat) (places : Thread → Place) (thread : Thread) :
    weight (places thread) ≤ ∑ other, weight (places other) :=
  Finset.single_le_sum (f := fun other => weight (places other))
    (fun _ _ => Nat.zero_le _) (Finset.mem_univ thread)

end Threads

end AsrServer.Transition
