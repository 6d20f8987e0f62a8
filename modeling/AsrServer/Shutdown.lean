import AsrServer.Ownership

/-!
The way of a worker through the list, up to the end of the server. `main` stops the receivers
and joins them before it flushes the list, so no `put` comes too late; but `get` tests
`_alive` before it looks at the list, and what is in the list then stays there. The log goes
along with the server and has no influence on it.
-/

namespace AsrServer.Shutdown

open Bytes Reply Server Ownership

/-- The workers handed to `submit_worker`, returned by `get` and passed to `retrieve_worker`, and
those in the list when `flush` was called. -/
structure Log where
  submitted : List WorkerId
  returned : List WorkerId
  retrieved : List WorkerId
  left : List WorkerId
  deriving DecidableEq, Repr

section Runs
variable {R L : Type} [DecidableEq R] [Fintype R] [DecidableEq L] [Fintype L]

def ids (workers : List Worker) : List WorkerId := workers.map Worker.id

def Log.next (log : Log) (state : State R L) : Action R L → Log
  | .submit _ => { log with submitted := log.submitted ++ [state.nextWorker] }
  | .get _ =>
      if state.alive then { log with returned := log.returned ++ ids (state.task_list.take 1) }
      else log
  | .send loader _ _ _ =>
      match state.loaders loader with
      | .working worker => { log with retrieved := log.retrieved ++ [worker.id] }
      | _ => log
  | .flush => { log with left := ids state.task_list }
  | _ => log

def step (config : Config) (run : State R L × Log) (action : Action R L) :
    Option (State R L × Log) :=
  (Server.step config run.1 action).map fun after => (after, run.2.next run.1 action)

abbrev Running (config : Config) : State R L × Log → Prop :=
  Transition.Reachable (step config) fun run => run = (State.initial config R L, ⟨[], [], [], []⟩)

/-- `Worker_Loader::stop` has flushed the list and joined the loaders. -/
def Ended (run : State R L × Log) : Prop :=
  run.1.alive = false ∧ ∀ loader, run.1.loaders loader = .finished

/-- Every worker is returned by one `get` and passed to `retrieve_worker` once. -/
def Delivered (log : Log) : Prop :=
  ∀ id ∈ log.submitted, log.returned.count id = 1 ∧ log.retrieved.count id = 1

def inHand (id : WorkerId) : Loader → Nat
  | .working worker => if worker.id = id then 1 else 0
  | _ => 0

structure Accounted (state : State R L) (log : Log) : Prop where
  submitted : log.submitted = List.range state.nextWorker
  listed : ∀ id, log.submitted.count id = (ids state.task_list).count id + log.returned.count id
  held : ∀ id, log.returned.count id =
    (∑ loader, inHand id (state.loaders loader)) + log.retrieved.count id
  closed : state.alive = false →
    (∀ receiver, state.receivers receiver = .exited) ∧ log.left = ids state.task_list

variable {config : Config} {state : State R L} {log : Log} (accounted : Accounted state log)

include accounted

omit [DecidableEq R] [Fintype R] [DecidableEq L] in
theorem receiver_accounted {after : State R L} {receiver : R} {place : Receiver}
    (there : state.receivers receiver = place) (running : place ≠ .exited)
    (next : after.nextWorker = state.nextWorker) (list : after.task_list = state.task_list)
    (loaders : after.loaders = state.loaders) (alive : after.alive = state.alive) :
    Accounted after log := by
  constructor
  · rw [next]
    exact accounted.submitted
  · intro id
    rw [list]
    exact accounted.listed id
  · intro id
    rw [loaders]
    exact accounted.held id
  · intro flushed
    rw [alive] at flushed
    rw [(accounted.closed flushed).1 receiver] at there
    exact absurd there.symm running

omit [DecidableEq R] [Fintype R] in
theorem loader_accounted {after : State R L} (loader : L) (place : Loader)
    (same : ∀ id, inHand id place = inHand id (state.loaders loader))
    (next : after.nextWorker = state.nextWorker) (list : after.task_list = state.task_list)
    (receivers : after.receivers = state.receivers) (alive : after.alive = state.alive)
    (loaders : after.loaders = Function.update state.loaders loader place) :
    Accounted after log := by
  constructor
  · rw [next]
    exact accounted.submitted
  · intro id
    rw [list]
    exact accounted.listed id
  · intro id
    have moved := Transition.sum_update (inHand id) state.loaders loader place
    rw [loaders, accounted.held id]
    have unchanged := same id
    omega
  · rw [alive, list, receivers]
    exact accounted.closed

omit [Fintype R] [DecidableEq L] in
theorem submit_accounted (receiver : R) (place : Receiver) (worker : Worker)
    (received : ConnId → List WorkerId) (number : worker.id = state.nextWorker)
    (alive : state.alive = true) :
    Accounted
      { state.at receiver place with
        nextWorker := state.nextWorker + 1
        task_list := state.task_list ++ [worker]
        received := received }
      { log with submitted := log.submitted ++ [state.nextWorker] } := by
  constructor
  · rw [accounted.submitted]
    exact List.range_succ.symm
  · intro id
    have listed := accounted.listed id
    simp only [ids, List.map_append, List.map_cons, List.map_nil, List.count_append, number]
      at listed ⊢
    omega
  · exact accounted.held
  · intro flushed
    rw [State.at, alive] at flushed
    cases flushed

omit [DecidableEq R] [Fintype R] in
theorem get_accounted (loader : L) (worker : Worker) (rest : List Worker)
    (place : state.loaders loader = .waiting) (alive : state.alive = true)
    (queued : state.task_list = worker :: rest) :
    Accounted { state.loading loader (.working worker) with task_list := rest }
      { log with returned := log.returned ++ [worker.id] } := by
  constructor
  · exact accounted.submitted
  · intro id
    have listed := accounted.listed id
    rw [queued] at listed
    simp only [ids, List.map_cons, List.count_cons, List.count_append, List.count_nil]
      at listed ⊢
    omega
  · intro id
    have held := accounted.held id
    have moved := Transition.sum_update (inHand id) state.loaders loader (.working worker)
    have before : inHand id .waiting = 0 := rfl
    have taken : inHand id (.working worker) = if worker.id = id then 1 else 0 := rfl
    rw [place, before, taken] at moved
    simp only [State.loading, List.count_append, List.count_cons, List.count_nil, beq_iff_eq]
    omega
  · intro flushed
    rw [State.loading, alive] at flushed
    cases flushed

omit [DecidableEq R] [Fintype R] in
theorem send_accounted {after : State R L} (loader : L) (worker : Worker)
    (place : state.loaders loader = .working worker)
    (next : after.nextWorker = state.nextWorker) (list : after.task_list = state.task_list)
    (receivers : after.receivers = state.receivers) (alive : after.alive = state.alive)
    (loaders : after.loaders = Function.update state.loaders loader (.replied worker)) :
    Accounted after { log with retrieved := log.retrieved ++ [worker.id] } := by
  constructor
  · rw [next]
    exact accounted.submitted
  · intro id
    rw [list]
    exact accounted.listed id
  · intro id
    have held := accounted.held id
    have moved := Transition.sum_update (inHand id) state.loaders loader (.replied worker)
    have before : inHand id (.working worker) = if worker.id = id then 1 else 0 := rfl
    have passed : inHand id (.replied worker) = 0 := rfl
    rw [place, before, passed] at moved
    rw [loaders]
    simp only [List.count_append, List.count_cons, List.count_nil, beq_iff_eq]
    omega
  · rw [alive, list, receivers]
    exact accounted.closed

omit [Fintype R] in
theorem moved_accounted (action : Action R L) (after : State R L)
    (moved : Moved config state action after) : Accounted after (log.next state action) := by
  cases moved with
  | exit place | lock place | waitFailed _ _ place | waitListen place | waitPipe place
  | waitClient place | acceptNone place | acceptSome place | count place | acquire place
  | headerComplete place | headerError place | bodyRejected place | bodyComplete place
  | bodyShort place | flag place =>
      exact receiver_accounted accounted place (by simp) rfl rfl rfl rfl
  | create place =>
      refine receiver_accounted accounted place (by simp) ?_ ?_ ?_ ?_ <;>
        rw [create_handle_eq] <;> rfl
  | add place | rearmSubmitted place | rearmRejected place =>
      refine receiver_accounted accounted place (by simp) ?_ ?_ ?_ ?_ <;>
        rw [add_input_fd_eq] <;> rfl
  | drop place live released =>
      refine receiver_accounted accounted place (by simp) ?_ ?_ ?_ ?_ <;>
        cases released <;> rfl
  | submit place alive => exact submit_accounted accounted _ _ _ _ rfl alive
  | @submitFlushed receiver fd hdle request conn place flushed =>
      -- The loaders are stopped after the receivers have been joined.
      have exited := (accounted.closed flushed).1 receiver
      rw [place] at exited
      cases exited
  | @get loader worker rest place alive queued =>
      have log_next : log.next state (.get loader) =
          { log with returned := log.returned ++ [worker.id] } := by
        rw [Log.next, if_pos alive, queued]
        rfl
      rw [log_next]
      exact get_accounted accounted loader worker rest place alive queued
  | @getNull loader place flushed =>
      -- `get` returns NULL once `_alive` is 0, whatever is still in the list.
      have log_next : log.next state (.get loader) = log := by
        rw [Log.next, flushed]
        rfl
      rw [log_next]
      exact loader_accounted accounted loader .finished (fun id => by rw [place]; rfl)
        rfl rfl rfl rfl rfl
  | @send loader timestr headerPlan bodyPlan worker value conn place live file =>
      have log_next : log.next state (.send loader timestr headerPlan bodyPlan) =
          { log with retrieved := log.retrieved ++ [worker.id] } := by
        rw [Log.next, place]
      rw [log_next]
      exact send_accounted accounted loader worker place rfl rfl rfl rfl rfl
  | @release loader worker value next place live released =>
      refine loader_accounted accounted loader .waiting (fun id => by rw [place]; rfl)
        ?_ ?_ ?_ ?_ ?_ <;> cases released <;> rfl
  | arrive | stop => exact ⟨accounted.submitted, accounted.listed, accounted.held, accounted.closed⟩
  | flush exited =>
      exact ⟨accounted.submitted, accounted.listed, accounted.held, fun _ => ⟨exited, rfl⟩⟩

omit accounted in
theorem reachable_accounted (run : State R L × Log) (reached : Running config run) :
    Accounted run.1 run.2 := by
  refine reached.invariant (fun run => Accounted run.1 run.2) ?_ ?_
  · intro run start
    subst start
    exact ⟨rfl, fun _ => rfl, fun _ => by simp [inHand, State.initial],
      fun flushed => by cases flushed⟩
  · intro before action after _ _ accounted ran
    obtain ⟨next, moved, rfl⟩ := Option.map_eq_some_iff.mp ran
    exact moved_accounted accounted action next (step_moved config _ _ action moved)

omit accounted in
/-- What is still in the list when it is flushed stays there; every other worker that was
submitted has been returned once and passed on once when the loaders have ended. -/
theorem shutdown_delivers (run : State R L × Log) (reached : Running config run)
    (ended : Ended run) (id : WorkerId) (submitted : id ∈ run.2.submitted) :
    if id ∈ run.2.left then run.2.returned.count id = 0 ∧ run.2.retrieved.count id = 0
    else run.2.returned.count id = 1 ∧ run.2.retrieved.count id = 1 := by
  obtain ⟨flushed, finished⟩ := ended
  have accounted := reachable_accounted run reached
  have listed := accounted.listed id
  have held := accounted.held id
  have empty : ∑ loader, inHand id (run.1.loaders loader) = 0 := by
    apply Finset.sum_eq_zero
    intro loader _
    rw [finished loader]
    rfl
  rw [accounted.submitted, List.count_eq_one_of_mem List.nodup_range
    (accounted.submitted ▸ submitted)] at listed
  rw [(accounted.closed flushed).2]
  split
  · rename_i left
    have counted := List.count_pos_iff.mpr left
    omega
  · rename_i gone
    rw [List.count_eq_zero_of_not_mem gone] at listed
    omega

end Runs

/-- Two requests arrive; the loader has the first in hand when the server is stopped. -/
def stopping : List (Server.Action (Fin 1) (Fin 1)) :=
  connect 0 5 ++ request 0 5 0 ++ request 0 5 0 ++ [.get 0, .stop, .lock 0, .flush,
    .send 0 [] [.wrote 1024] [.wrote 1024], .release 0, .get 0]

theorem stopping_ends : ∃ run : State (Fin 1) (Fin 1) × Log, Running sample run ∧ Ended run ∧
    run.2 = ⟨[0, 1], [0], [0], [1]⟩ := by
  obtain ⟨run, reached, shown⟩ := Transition.exec_reaches
    (.start rfl : Running sample (State.initial sample (Fin 1) (Fin 1), ⟨[], [], [], []⟩)) stopping
    (fun run => decide (run.1.alive = false ∧ (∀ loader, run.1.loaders loader = .finished) ∧
      run.2 = ⟨[0, 1], [0], [0], [1]⟩))
    (by decide +kernel)
  obtain ⟨flushed, finished, log⟩ := of_decide_eq_true shown
  exact ⟨run, reached, ⟨flushed, finished⟩, log⟩

theorem shutdown_delivers_two : ∃ run : State (Fin 1) (Fin 1) × Log, 0 ∈ run.2.submitted ∧
    if 0 ∈ run.2.left then run.2.returned.count 0 = 0 ∧ run.2.retrieved.count 0 = 0
    else run.2.returned.count 0 = 1 ∧ run.2.retrieved.count 0 = 1 := by
  obtain ⟨run, reached, ended, log⟩ := stopping_ends
  have submitted : 0 ∈ run.2.submitted := by
    rw [log]
    decide
  exact ⟨run, submitted, shutdown_delivers run reached ended 0 submitted⟩

/-- The second request is accepted and never answered. -/
theorem queued_is_lost : ∃ run : State (Fin 1) (Fin 1) × Log,
    Running sample run ∧ Ended run ∧ ¬ Delivered run.2 := by
  obtain ⟨run, reached, ended, log⟩ := stopping_ends
  refine ⟨run, reached, ended, ?_⟩
  intro delivered
  rw [log] at delivered
  have second := (delivered 1 (by decide)).1
  cases second

end AsrServer.Shutdown
