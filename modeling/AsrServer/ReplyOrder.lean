import AsrServer.Lifetime
import AsrServer.ServicePool

/-!
The order of the responses on a connection. Its workers go through the one queue
in the order they were received, and from there into the hands of the loader
threads; nothing orders the responses of two threads that have a worker of the
same connection each. What the queue does guarantee is order for workers that
are not served at the same time.
-/

namespace AsrServer.ReplyOrder

open Server Ownership References Lifetime ServicePool

variable {R L : Type}

/-- The responses of every connection appear in the order of its requests. -/
def InOrder (state : State R L) : Prop :=
  ∀ conn, (state.answered conn).Sublist (state.received conn)

def serving : Loader → Option Worker
  | .working worker => some worker
  | _ => none

def Together (state : State R L) (first second : WorkerId) : Prop :=
  (∃ loader, (serving (state.loaders loader)).map Worker.id = some first) ∧
    ∃ loader, (serving (state.loaders loader)).map Worker.id = some second

instance [Fintype L] (state : State R L) (first second : WorkerId) :
    Decidable (Together state first second) := inferInstanceAs (Decidable (_ ∧ _))

def holds (conn : ConnId) (place : Loader) : Option WorkerId :=
  ((serving place).filter fun worker => worker.conn = conn).map Worker.id

def active (loaders : L → Loader) (conn : ConnId) : Set WorkerId :=
  {id | ∃ loader, holds conn (loaders loader) = some id}

/-- The queue and the loaders as one connection sees them. -/
def lane (state : State R L) (conn : ConnId) : Pool WorkerId where
  arrived := state.received conn
  waiting := (state.task_list.filter fun worker => worker.conn = conn).map Worker.id
  active := active state.loaders conn
  finished := state.answered conn

def Numbered (state : State R L) : Prop :=
  ∀ conn, ∀ id ∈ state.received conn, id < state.nextWorker

section Active
variable [DecidableEq L] (loaders : L → Loader) (conn : ConnId)

theorem active_same (acting : L) (place : Loader)
    (same : holds conn place = holds conn (loaders acting)) :
    active (Function.update loaders acting place) conn = active loaders conn := by
  have kept (loader : L) :
      holds conn (Function.update loaders acting place loader) = holds conn (loaders loader) := by
    by_cases here : loader = acting
    · rw [here, Function.update_self, same]
    · rw [Function.update_of_ne here]
  simp only [active, kept]

theorem active_less (acting : L) (place : Loader) (id : WorkerId)
    (held : holds conn (loaders acting) = some id) :
    active loaders conn ⊆ insert id (active (Function.update loaders acting place) conn) := by
  rintro other ⟨loader, holder⟩
  by_cases here : loader = acting
  · rw [here, held, Option.some.injEq] at holder
    exact Or.inl holder.symm
  · exact Or.inr ⟨loader, by rwa [Function.update_of_ne here]⟩

theorem active_fewer (acting : L) (place : Loader) (empty : holds conn place = none) :
    active (Function.update loaders acting place) conn ⊆ active loaders conn := by
  rintro other ⟨loader, holder⟩
  by_cases here : loader = acting
  · rw [here, Function.update_self, empty] at holder
    cases holder
  · exact ⟨loader, by rwa [Function.update_of_ne here] at holder⟩

theorem active_more (acting : L) (place : Loader) (id : WorkerId)
    (empty : holds conn (loaders acting) = none) (taken : holds conn place = some id) :
    active (Function.update loaders acting place) conn = insert id (active loaders conn) := by
  have back : Function.update (Function.update loaders acting place) acting (loaders acting) =
      loaders := by simp
  apply Set.Subset.antisymm
  · have less := active_less (Function.update loaders acting place) conn acting
      (loaders acting) id (by rw [Function.update_self, taken])
    rwa [back] at less
  · rintro other (same | held)
    · exact ⟨acting, by rw [Function.update_self, taken, same]⟩
    · have fewer := active_fewer (Function.update loaders acting place) conn acting
        (loaders acting) empty
      rw [back] at fewer
      exact fewer held

end Active

section Step
variable [DecidableEq R] [DecidableEq L] {config : Config} {state : State R L}

omit [DecidableEq R] [DecidableEq L] in
theorem lane_same (after : State R L) (conn : ConnId)
    (same : (after.received, after.task_list, after.loaders, after.answered) =
      (state.received, state.task_list, state.loaders, state.answered)) :
    lane after conn = lane state conn := by
  simp only [Prod.mk.injEq] at same
  obtain ⟨received, tasks, loaders, answered⟩ := same
  simp only [lane, received, tasks, loaders, answered]

/-- What a step is for one connection: nothing, or a step of its pool. -/
theorem moved_lane (origins : Origins state) (numbered : Numbered state) (action : Action R L)
    (after : State R L) (moved : Moved config state action after) (conn : ConnId) :
    lane after conn = lane state conn ∨ Step (lane state conn) (lane after conn) := by
  cases moved with
  | create =>
      left
      apply lane_same
      rw [create_handle_eq]
      rfl
  | add | rearmSubmitted | rearmRejected =>
      left
      apply lane_same
      rw [add_input_fd_eq]
      rfl
  | drop place live released =>
      left
      apply lane_same
      cases released <;> rfl
  | @submit receiver fd hdle request own place alive =>
      by_cases mine : conn = own
      · subst mine
        right
        have fresh : state.nextWorker ∉ (lane state conn).arrived :=
          fun known => Nat.lt_irrefl _ (numbered conn _ known)
        have step := Step.arrive state.nextWorker fresh
        simpa [lane, State.at] using step
      · left
        simp [lane, State.at, Function.update_of_ne mine, Ne.symm mine]
  | @get loader worker rest place alive queue =>
      by_cases mine : worker.conn = conn
      · right
        have front : (lane state conn).waiting =
            worker.id :: (rest.filter fun worker => worker.conn = conn).map Worker.id := by
          simp [lane, queue, mine]
        have grown := active_more state.loaders conn loader (.working worker) worker.id
          (by rw [place]; rfl) (by simp [holds, serving, mine])
        have step := Step.take front
        simp only [lane, State.loading, grown] at step ⊢
        exact step
      · left
        have same := active_same state.loaders conn loader (.working worker)
          (by rw [place]; simp [holds, serving, mine])
        simp [lane, State.loading, same, queue, mine]
  | getNull place flushed =>
      left
      simp only [lane, State.loading]
      rw [active_same _ _ _ .finished (by rw [place]; rfl)]
  | @send loader timestr headerPlan bodyPlan worker value own place live file =>
      -- The response goes out where the request came from.
      have origin : worker.conn = own := by
        have here := origins worker (Or.inr ⟨loader, Or.inl place⟩) value live
        rw [file] at here
        cases here
        rfl
      subst origin
      by_cases mine : conn = worker.conn
      · right
        have held : holds conn (state.loaders loader) = some worker.id := by
          rw [place]
          simp [holds, serving, mine]
        have step : Step (lane state conn) _ := .finish _ ⟨loader, held⟩
          (active_fewer _ _ loader (.replied worker) rfl)
          (active_less _ _ loader (.replied worker) _ held)
        simpa [lane, State.loading, mine] using step
      · left
        have same := active_same state.loaders conn loader (.replied worker)
          (by rw [place]; simp [holds, serving, Ne.symm mine])
        simp [lane, State.loading, same, Function.update_of_ne mine]
  | release place live released =>
      left
      cases released <;> simp only [lane, State.loading, State.put, del_input_fd] <;>
        rw [active_same _ _ _ .waiting (by rw [place]; rfl)]
  | _ => exact Or.inl rfl

theorem moved_numbered (numbered : Numbered state) (action : Action R L) (after : State R L)
    (moved : Moved config state action after) : Numbered after := by
  have same (next : State R L) (kept : (next.received, next.nextWorker) =
      (state.received, state.nextWorker)) : Numbered next := by
    simp only [Prod.mk.injEq] at kept
    unfold Numbered
    rw [kept.1, kept.2]
    exact numbered
  cases moved with
  | create =>
      apply same
      rw [create_handle_eq]
      rfl
  | add | rearmSubmitted | rearmRejected =>
      apply same
      rw [add_input_fd_eq]
      rfl
  | drop place live released | release place live released =>
      apply same
      cases released <;> rfl
  | @submit receiver fd hdle request own place alive =>
      intro conn id member
      by_cases mine : conn = own
      · subst mine
        simp only [Function.update_self, List.mem_append, List.mem_singleton] at member
        rcases member with earlier | new
        · exact Nat.lt_succ_of_lt (numbered conn id earlier)
        · exact new ▸ Nat.lt_succ_self _
      · simp only [Function.update_of_ne mine] at member
        exact Nat.lt_succ_of_lt (numbered conn id member)
  | submitFlushed => exact fun conn id member => Nat.lt_succ_of_lt (numbered conn id member)
  | _ => exact numbered

end Step

section Runs
variable [DecidableEq R] [Fintype R] [DecidableEq L] [Fintype L] {config : Config}

omit [Fintype L] in
theorem reachable_numbered (state : State R L) (reached : Running config state) :
    Numbered state := by
  refine reached.invariant Numbered ?_ ?_
  · intro state start conn id member
    subst start
    cases member
  · intro before action after _ _ numbered ran
    exact moved_numbered numbered action after (step_moved config before after action ran)

/-- Every connection's workers are taken in the order they were received. -/
theorem reachable_fifo (state : State R L) (reached : Running config state) (conn : ConnId) :
    Fifo (lane state conn) := by
  refine reached.invariant (fun state => Fifo (lane state conn)) ?_ ?_
  · intro state start
    subst start
    refine ⟨List.nodup_nil, [], rfl, ?_⟩
    intro id
    simp [lane, active, holds, serving, State.initial]
  · intro before action after earlier _ fifo ran
    rcases moved_lane (reachable_origins before earlier) (reachable_numbered before earlier) action
      after (step_moved config before after action ran) conn with same | step
    · exact same ▸ fifo
    · exact step.fifo fifo

/-- The runs in which the two workers are never in the hands of two loaders at once. -/
abbrev RunningApart (config : Config) (first second : WorkerId) (state : State R L) : Prop :=
  Transition.ReachableWhile (step config) (· = State.initial config R L)
    (fun before _ => ¬ Together before first second) state

/-- Two requests that no two loaders have in hand at the same time are answered in
the order they were received in. -/
theorem replies_in_order (first second : WorkerId) (state : State R L)
    (reached : RunningApart config first second state) (conn : ConnId)
    (received : [first, second].Sublist (state.received conn))
    (answered : second ∈ state.answered conn) :
    [first, second].Sublist (state.answered conn) := by
  suffices ordered : Ordered first second (lane state conn) from ordered received answered
  refine reached.invariant (fun state => Ordered first second (lane state conn)) ?_ ?_
  · intro state start _ member
    subst start
    cases member
  · intro before action after earlier apart ordered ran
    have running := earlier.reachable
    rcases moved_lane (reachable_origins before running) (reachable_numbered before running) action
      after (step_moved config before after action ran) conn with same | step
    · exact same ▸ ordered
    · refine step.ordered (reachable_fifo before running conn) first second ?_ ordered
      rintro ⟨⟨one, mine⟩, ⟨two, his⟩⟩
      have inHand (loader : L) (id : WorkerId)
          (held : holds conn (before.loaders loader) = some id) :
          (serving (before.loaders loader)).map Worker.id = some id := by
        obtain ⟨worker, kept, number⟩ := Option.map_eq_some_iff.mp held
        rw [Option.eq_some_of_filter_eq_some kept, Option.map_some, number]
      exact apart ⟨⟨one, inHand one first mine⟩, ⟨two, inHand two second his⟩⟩

end Runs

theorem replies_in_order_two : ∃ state : State (Fin 1) (Fin 2),
    state.answered 0 = [0, 1] ∧ [0, 1].Sublist (state.answered 0) := by
  obtain ⟨state, reached, shown⟩ := Transition.execWhile_reaches
    (fun before _ => decide (¬ Together before 0 1))
    (fun before _ _ passes => of_decide_eq_true passes)
    (.start rfl : RunningApart sample 0 1 (State.initial sample (Fin 1) (Fin 2)))
    (connect 0 5 ++ request 0 5 0 ++ request 0 5 0 ++ [.get 1,
      .send 1 [] [.wrote 1024] [.wrote 1024], .get 0, .send 0 [] [.wrote 1024] [.wrote 1024]])
    (fun state => decide (state.answered 0 = [0, 1] ∧ state.received 0 = [0, 1]))
    (by decide +kernel)
  obtain ⟨answered, received⟩ := of_decide_eq_true shown
  refine ⟨state, answered, replies_in_order 0 1 state reached 0 ?_ ?_⟩
  · rw [received]
  · rw [answered]
    decide

/-- Two requests of one connection, taken by two loaders; the second is answered
first. -/
theorem second_answered_first :
    ∃ state : State (Fin 1) (Fin 2), Running sample state ∧ ¬ InOrder state := by
  obtain ⟨state, reached, shown⟩ := Transition.exec_reaches
    (.start rfl : Running sample (State.initial sample (Fin 1) (Fin 2)))
    (connect 0 5 ++ request 0 5 0 ++ request 0 5 0 ++ [.get 0, .get 1,
      .send 1 [] [.wrote 1024] [.wrote 1024], .send 0 [] [.wrote 1024] [.wrote 1024]])
    (fun state => decide (state.answered 0 = [1, 0] ∧ state.received 0 = [0, 1]))
    (by decide +kernel)
  obtain ⟨answered, received⟩ := of_decide_eq_true shown
  refine ⟨state, reached, ?_⟩
  intro ordered
  have kept := ordered 0
  rw [answered, received] at kept
  revert kept
  decide

end AsrServer.ReplyOrder
