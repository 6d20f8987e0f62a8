import AsrServer.TaskBase

/-!
Every run of a `task_base` ends: in the end of `join`, or in a `join` of threads that wait
for an `activate` which is never called.
-/

namespace AsrServer.TaskBase

open Transition

variable {thread_num : Nat} {state after : State thread_num}

/-! What is left to do. -/

def Thread.left : Thread → Nat
  | .absent | .started => 3
  | .waiting => 2
  | .serving => 1
  | .returned => 0

def Owner.left (thread_num : Nat) : Owner → Nat
  | .fresh => 2 * thread_num + 6
  | .rejected => 1
  | .opening i => thread_num - i + thread_num + 5
  | .refused => thread_num + 2
  | .opened => thread_num + 4
  | .activating => thread_num + 3
  | .active => thread_num + 2
  | .joining i => thread_num - i + 1
  | .joined => 0

def State.left (state : State thread_num) : Nat :=
  state.owner.left thread_num + ∑ thread, (state.threads thread).left

/-- `join` waits for a thread that waits for `activate`: the owner stopped without it, or
`open` failed after it had created some of the threads. -/
def State.Stuck (state : State thread_num) : Prop :=
  state.owner = .joining 0 ∧ 0 < state.m_thread_num ∧ state.m_barrier.begun none = 0 ∧
    ∀ thread : Fin thread_num, thread < state.m_thread_num → state.threads thread = .waiting

theorem left_move (state : State thread_num) (thread : Fin thread_num) (place : Thread) :
    (state.move thread place).left + (state.threads thread).left = state.left + place.left := by
  have moved := sum_update Thread.left state.threads thread place
  unfold State.left State.move
  dsimp only
  omega

theorem step_lowers (lives : Lives state) (action : Action thread_num)
    (stepped : step state action = some after) : after.left < state.left := by
  -- Whoever takes a step has less before it; being created is no step of the thread.
  have room := lives.counts.room
  cases action with
  | setup succeeds =>
      simp only [step, setup] at stepped
      split at stepped
      · rename_i place
        split at stepped <;> cases stepped <;> simp only [State.left, place, Owner.left] <;> omega
      · cases stepped
  | create succeeds =>
      simp only [step, create] at stepped
      split at stepped
      · rename_i i place
        split at stepped
        · rename_i inside
          split at stepped <;> cases stepped
          · have absent : state.threads ⟨i, inside⟩ = .absent := by
              rw [lives.counts.created, State.made, place]
            have moved := left_move state ⟨i, inside⟩ .started
            simp only [absent, State.left, State.move, place, Owner.left, Thread.left] at moved ⊢
            omega
          · simp only [State.left, place, Owner.left]
            omega
        · cases stepped
      · cases stepped
  | opened =>
      simp only [step, opened] at stepped
      split at stepped
      · rename_i i place
        split at stepped <;> cases stepped
        simp only [State.left, place, Owner.left]
        omega
      · cases stepped
  | activate =>
      simp only [step, activate, State.enter] at stepped
      split at stepped
      · rename_i place
        obtain ⟨_, entered, rfl⟩ := Option.map_eq_some_iff.mp stepped
        obtain ⟨barrier, _, rfl⟩ := Option.map_eq_some_iff.mp entered
        simp only [State.left, place, Owner.left]
        omega
      · cases stepped
  | activated =>
      simp only [step, activated, State.leave] at stepped
      split at stepped
      · rename_i place
        obtain ⟨_, left, rfl⟩ := Option.map_eq_some_iff.mp stepped
        obtain ⟨barrier, _, rfl⟩ := Option.map_eq_some_iff.mp left
        simp only [State.left, place, Owner.left]
        omega
      · cases stepped
  | stop =>
      simp only [step, stop] at stepped
      split at stepped
      case _ place | _ place | _ place | _ place =>
        cases stepped
        simp only [State.left, place, Owner.left]
        omega
      · cases stepped
  | join =>
      simp only [step, join] at stepped
      split at stepped
      · rename_i i place
        split at stepped
        · split at stepped <;> cases stepped
          simp only [State.left, place, Owner.left]
          omega
        · cases stepped
          simp only [State.left, place, Owner.left]
          omega
      · cases stepped
  | wait thread =>
      simp only [step, wait, State.enter] at stepped
      split at stepped
      · rename_i place
        obtain ⟨_, entered, rfl⟩ := Option.map_eq_some_iff.mp stepped
        obtain ⟨barrier, _, rfl⟩ := Option.map_eq_some_iff.mp entered
        have moved := left_move state thread .waiting
        simp only [place, State.left, State.move, Thread.left] at moved ⊢
        omega
      · cases stepped
  | run thread =>
      simp only [step, run, State.leave] at stepped
      split at stepped
      · rename_i place
        obtain ⟨_, left, rfl⟩ := Option.map_eq_some_iff.mp stepped
        obtain ⟨barrier, _, rfl⟩ := Option.map_eq_some_iff.mp left
        have moved := left_move state thread .serving
        simp only [place, State.left, State.move, Thread.left] at moved ⊢
        omega
      · cases stepped
  | finish thread =>
      simp only [step, finish] at stepped
      split at stepped
      · rename_i place
        cases stepped
        have moved := left_move state thread .returned
        simp only [place, State.left, State.move, Thread.left] at moved ⊢
        omega
      · cases stepped

/-! Where a run ends. -/

/-- Before the owner has come nobody can go. -/
theorem Meets.closed (meets : Meets state) (early : state.m_barrier.begun none = 0)
    (party : Party thread_num) : Barrier.leave state.m_barrier party = none := by
  by_contra goes
  obtain ⟨barrier, left⟩ := Option.ne_none_iff_exists'.mp goes
  obtain ⟨inside, places, rounds⟩ := Barrier.leave_spec left
  have absent : state.m_barrier.inside none = none := by
    by_contra there
    unfold Barrier.State.begun at early
    rw [if_pos (Option.isSome_iff_ne_none.mpr there)] at early
    omega
  have differs : none ≠ party := by
    rintro rfl
    exact inside absent
  have together := (Barrier.leave_sound meets.sound party barrier left).together party none
  unfold Barrier.State.begun at together early
  rw [rounds, places, Function.update_self, Function.update_of_ne differs,
    Function.update_of_ne differs, early] at together
  omega

theorem stuck_rests (lives : Lives state) (stuck : state.Stuck) (action : Action thread_num) :
    step state action = none := by
  obtain ⟨joining, any, early, waiting⟩ := stuck
  have made : ∀ thread, state.threads thread = .absent ∨ state.threads thread = .waiting := by
    intro thread
    by_cases created : (thread : Nat) < state.m_thread_num
    · exact Or.inr (waiting thread created)
    · left
      rw [lives.counts.created]
      simp only [State.made, joining]
      omega
  cases action with
  | setup => simp [step, setup, joining]
  | create => simp [step, create, joining]
  | opened => simp [step, opened, joining]
  | activate => simp [step, activate, joining]
  | activated => simp [step, activated, joining]
  | stop => simp [step, stop, joining]
  | join =>
      have room := lives.counts.room
      have first := waiting ⟨0, by omega⟩ any
      simp [step, join, joining, any, State.thread, first, show 0 < thread_num by omega]
  | wait thread => rcases made thread with place | place <;> simp [step, wait, place]
  | run thread => simp [step, run, State.leave, lives.meets.closed early]
  | finish thread => rcases made thread with place | place <;> simp [step, finish, place]

section Rests
variable (lives : Lives state) (rests : ∀ action, step state action = none)
include lives rests

theorem rests_thread (thread : Fin thread_num) :
    state.threads thread = .absent ∨ state.threads thread = .returned ∨
      (state.threads thread = .waiting ∧
        ¬ (Barrier.leave state.m_barrier (some thread)).isSome) := by
  cases place : state.threads thread with
  | absent => exact Or.inl rfl
  | started =>
      have outside : state.m_barrier.inside (some thread) = none := by
        by_contra inside
        rw [(lives.meets.thread thread).mp inside] at place
        cases place
      obtain ⟨barrier, enters⟩ :=
        Option.isSome_iff_exists.mp (Barrier.enter_enabled (thread_num + 1) outside)
      have blocked := rests (.wait thread)
      simp [step, wait, place, State.enter, enters] at blocked
  | waiting =>
      refine Or.inr (Or.inr ⟨rfl, fun goes => ?_⟩)
      obtain ⟨barrier, leaves⟩ := Option.isSome_iff_exists.mp goes
      have blocked := rests (.run thread)
      simp [step, run, place, State.leave, leaves] at blocked
  | serving =>
      have blocked := rests (.finish thread)
      simp [step, finish, place] at blocked
  | returned => exact Or.inr (Or.inl rfl)

theorem rests_activating (activating : state.owner = .activating) : False := by
  have inside := lives.meets.owner.mpr activating
  have early := lives.meets.early (by rw [activating]; trivial)
  have number := lives.counts.owner
  rw [State.counted, activating] at number
  have closed : ¬ (Barrier.leave state.m_barrier none).isSome := by
    intro goes
    obtain ⟨barrier, leaves⟩ := Option.isSome_iff_exists.mp goes
    have blocked := rests .activated
    simp [step, activated, activating, State.leave, leaves] at blocked
  have waiting : ∀ thread, state.threads thread = .waiting ∧
      ¬ (Barrier.leave state.m_barrier (some thread)).isSome := by
    intro thread
    rcases rests_thread lives rests thread with place | place | waits
    · rw [lives.counts.created] at place
      simp only [State.made, activating, number] at place
      omega
    · have passed := lives.meets.passed thread
      rw [place, Thread.passes] at passed
      exact absurd (lives.meets.sound.opens (some thread) inside (by omega)) closed
    · exact waits
  obtain ⟨party, goes⟩ := lives.meets.sound.goes (by
    rintro (_ | thread)
    · exact inside
    · exact (lives.meets.thread thread).mpr (waiting thread).1)
  rcases party with _ | thread
  · exact closed goes
  · exact (waiting thread).2 goes

theorem rests_joining {i : Nat} (joining : state.owner = .joining i) : state.Stuck := by
  have number := lives.counts.owner
  rw [State.counted, joining] at number
  have room := lives.counts.room
  have more : i < state.m_thread_num := by
    by_contra done
    have blocked := rests .join
    simp [step, join, joining, done] at blocked
  have made : ∀ thread : Fin thread_num, thread < state.m_thread_num →
      state.threads thread ≠ .absent := by
    intro thread created
    rw [Ne, lives.counts.created]
    simp only [State.made, joining]
    omega
  have held : state.threads ⟨i, by omega⟩ = .waiting ∧
      ¬ (Barrier.leave state.m_barrier (some ⟨i, by omega⟩)).isSome := by
    rcases rests_thread lives rests ⟨i, by omega⟩ with place | place | waits
    · exact absurd place (made _ more)
    · have blocked := rests .join
      simp [step, join, joining, more, State.thread, place, show i < thread_num by omega]
        at blocked
    · exact waits
  -- The thread that `join` waits for cannot go, so nobody has gone.
  have nobody : ∀ party, state.m_barrier.rounds party = 0 := by
    intro party
    have passed := lives.meets.passed ⟨i, by omega⟩
    rw [held.1, Thread.passes] at passed
    by_contra any
    exact held.2 (lives.meets.sound.opens party
      ((lives.meets.thread _).mpr held.1) (by omega))
  have returned : ∀ thread, state.threads thread ≠ .returned := by
    intro thread place
    have passed := lives.meets.passed thread
    rw [nobody, place, Thread.passes] at passed
    omega
  have first : i = 0 := by
    by_contra later
    exact returned ⟨0, by omega⟩ (number.2 ⟨0, by omega⟩ (Nat.pos_of_ne_zero later))
  have outside : state.m_barrier.inside none = none := by
    by_contra inside
    have place := lives.meets.owner.mp inside
    rw [joining] at place
    cases place
  refine ⟨first ▸ joining, by omega, ?_, ?_⟩
  · rw [Barrier.State.begun, nobody, outside]
    rfl
  · intro thread created
    rcases rests_thread lives rests thread with place | place | waits
    · exact absurd place (made thread created)
    · exact absurd place (returned thread)
    · exact waits.1

theorem rests_cases : state.owner = .joined ∨ state.Stuck := by
  cases place : state.owner with
  | fresh =>
      have blocked := rests (.setup false)
      simp [step, setup, place] at blocked
  | opening i =>
      have number := lives.counts.owner
      rw [State.counted, place] at number
      rcases number.2.lt_or_eq with more | all
      · have blocked := rests (.create true)
        simp [step, create, place, more] at blocked
      · have blocked := rests .opened
        simp [step, opened, place, all] at blocked
  | activating => exact (rests_activating lives rests place).elim
  | joining i => exact Or.inr (rests_joining lives rests place)
  | joined => exact Or.inl rfl
  | rejected | refused | opened | active =>
      have blocked := rests .stop
      simp [step, stop, place] at blocked

end Rests

theorem joined_rests (joined : state.owner = .joined) (lives : Lives state)
    (action : Action thread_num) : step state action = none := by
  have places := lives.joined_places joined
  cases action with
  | setup => simp [step, setup, joined]
  | create => simp [step, create, joined]
  | opened => simp [step, opened, joined]
  | activate => simp [step, activate, joined]
  | activated => simp [step, activated, joined]
  | stop => simp [step, stop, joined]
  | join => simp [step, join, joined]
  | wait thread => rcases places thread with place | place <;> simp [step, wait, place]
  | run thread => rcases places thread with place | place <;> simp [step, run, place]
  | finish thread => rcases places thread with place | place <;> simp [step, finish, place]

/-- A run takes at most five steps a thread and six more. It can always go on until `join`
is over, unless the object is joined without `activate` while there are threads. -/
theorem joins_or_stuck {actions : List (Action thread_num)}
    (ran : exec step (State.initial thread_num) actions = some state) :
    actions.length ≤ 5 * thread_num + 6 ∧
      ((∀ action, step state action = none) ↔ state.owner = .joined ∨ state.Stuck) := by
  refine ⟨?_, ?_⟩
  · have bound := RanWhile.bounded State.left Lives
      (fun before action after lives stepped => step_lives lives action stepped)
      (fun before action after lives _ stepped => step_lowers lives action stepped)
      ⟨Meets.initial, Counts.initial⟩ (exec_ran ran)
    have most : (State.initial thread_num).left = 5 * thread_num + 6 := by
      simp [State.left, State.initial, Owner.left, Thread.left]
      omega
    omega
  · have lives := reached_lives (exec_reachable (.start rfl) actions ran)
    refine ⟨rests_cases lives, ?_⟩
    rintro (joined | stuck) action
    · exact joined_rests joined lives action
    · exact stuck_rests lives stuck action

/-- The second `pthread_create` fails, and the destructor waits for the first thread. -/
theorem joins_or_stuck_refused :
    ∃ state : State 2,
      exec step (State.initial 2)
        [.setup true, .create true, .create false, .wait 0, .stop] = some state ∧
      state.Stuck ∧ ∀ action, step state action = none := by
  obtain ⟨state, ran⟩ : ∃ state : State 2, exec step (State.initial 2)
      [.setup true, .create true, .create false, .wait 0, .stop] = some state := ⟨_, rfl⟩
  have stuck : state.Stuck := by
    cases ran
    exact ⟨rfl, by decide, rfl, by decide⟩
  exact ⟨state, ran, stuck, (joins_or_stuck ran).2.mpr (Or.inr stuck)⟩

end AsrServer.TaskBase
