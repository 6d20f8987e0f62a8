import AsrServer.EventLoop
import AsrServer.Steps

/-!
The two models of `svc` are one. `Server` takes a section guarded by `_epoll_mutex` in
a few steps, `EventLoop` a statement at a time and without the tables; a run of the first,
with what it does outside the loop left out, is a run of the second.
-/

namespace AsrServer.ServerLoop

open Server (Config Fd Receiver Waited)
open EventLoop (Place)

variable {R L : Type}

/-- Where the loop is when a receiver is at a place of `Server`. -/
def seen (config : Config) : Receiver → Place
  | .idle => .testing
  | .locked => .waiting
  | .accepting | .accepted _ | .counted _ | .inserted _ => .accepting config.listen
  | .dispatched fd | .receiving fd _ | .parsed fd _ _ _ | .submitting fd _ _ _ | .submitted fd
  | .rejecting fd _ | .failing fd _ | .flagged fd _ => .receiving fd
  | .exited => .exited

/-- The loop's part of a state of the server. -/
structure View (R : Type) where
  stop_task : Bool
  epoll_mutex : Option R
  ready_event : List Fd
  ready_event_num : Int
  places : R → Place

def view (config : Config) (state : Server.State R L) : View R where
  stop_task := state.stop_task
  epoll_mutex := state.epoll_mutex
  ready_event := state.ready_event
  ready_event_num := state.ready_event_num
  places := fun thread => seen config (state.receivers thread)

structure Sees (shown : View R) (loop : EventLoop.State R) : Prop where
  stop_task : loop.stop_task = shown.stop_task
  epoll_mutex : loop.epoll_mutex = shown.epoll_mutex
  ready_event_num : loop.ready_event_num = shown.ready_event_num
  ready_event : ∀ slot : Nat, (slot : Int) < shown.ready_event_num →
    shown.ready_event[slot]? = some (loop.ready_event slot)
  places : loop.places = shown.places

variable [DecidableEq R]

def Shown (config : Config) (shown : View R) : Prop :=
  ∃ loop, EventLoop.Reachable config loop ∧ Sees shown loop

def View.at (shown : View R) (thread : R) (place : Place) : View R :=
  { shown with places := Function.update shown.places thread place }

/-! The steps of the loop. -/

section Steps
variable {config : Config} {shown : View R}

theorem shown_initial (absent : shown.epoll_mutex = none) (running : shown.stop_task = false)
    (empty : shown.ready_event_num = 0) (begins : ∀ thread, shown.places thread = .testing) :
    Shown config shown := by
  refine ⟨⟨false, .none, fun _ => 0, 0, fun _ => false, fun _ => .testing, []⟩,
    .start ⟨rfl, rfl, rfl, fun _ => rfl, rfl⟩, ⟨running.symm, absent.symm, empty.symm, ?_, ?_⟩⟩
  · intro slot inside
    rw [empty] at inside
    omega
  · exact (funext begins).symm

theorem Shown.stop (reached : Shown config shown) :
    Shown config { shown with stop_task := true } := by
  obtain ⟨loop, reached, sees⟩ := reached
  exact ⟨_, .next .stop reached trivial rfl,
    ⟨rfl, sees.epoll_mutex, sees.ready_event_num, sees.ready_event, sees.places⟩⟩

omit [DecidableEq R] in
theorem Sees.place {loop : EventLoop.State R} (sees : Sees shown loop) {thread : R}
    {place : Place} (here : shown.places thread = place) : loop.places thread = place := by
  rw [sees.places, here]

theorem Sees.moved {loop : EventLoop.State R} (sees : Sees shown loop) (thread : R)
    (place : Place) : Sees (shown.at thread place) (loop.at thread place) := by
  refine ⟨sees.stop_task, sees.epoll_mutex, sees.ready_event_num, sees.ready_event, ?_⟩
  rw [View.at, EventLoop.State.at, sees.places]

omit [DecidableEq R] in
theorem Sees.note {loop : EventLoop.State R} (sees : Sees shown loop) (thread : R)
    (deed : EventLoop.Deed) : Sees shown (loop.note thread deed) :=
  ⟨sees.stop_task, sees.epoll_mutex, sees.ready_event_num, sees.ready_event, sees.places⟩

theorem at_at (thread : R) (first second : Place) :
    (shown.at thread first).at thread second = shown.at thread second := by
  simp only [View.at, Function.update_idem]

theorem at_place (thread : R) (place : Place) : (shown.at thread place).places thread = place :=
  Function.update_self _ _ _

theorem Shown.test {thread : R} (reached : Shown config shown)
    (here : shown.places thread = .testing) :
    Shown config (shown.at thread (if shown.stop_task then .exited else .entering)) := by
  obtain ⟨loop, reached, sees⟩ := reached
  refine ⟨_, .next (.go thread) reached trivial ?_, sees.moved thread _⟩
  simp only [EventLoop.step, EventLoop.go, sees.place here, sees.stop_task]

theorem Shown.enter {thread : R} (reached : Shown config shown)
    (here : shown.places thread = .entering) (free : shown.epoll_mutex = none) :
    Shown config { shown.at thread .locked with epoll_mutex := some thread } := by
  obtain ⟨loop, reached, sees⟩ := reached
  have moved := sees.moved thread .locked
  have ran : EventLoop.step config loop (.go thread) =
      some { loop.at thread .locked with epoll_mutex := some thread } := by
    simp only [EventLoop.step, EventLoop.go, sees.place here, sees.epoll_mutex, free, ↓reduceIte]
  exact ⟨_, .next _ reached trivial ran,
    ⟨moved.stop_task, rfl, moved.ready_event_num, moved.ready_event, moved.places⟩⟩

/-- The second look at `_stop_task`. -/
theorem Shown.again {thread : R} (reached : Shown config shown)
    (here : shown.places thread = .locked) (running : shown.stop_task = false) :
    Shown config (shown.at thread .waiting) := by
  obtain ⟨loop, reached, sees⟩ := reached
  refine ⟨_, .next (.go thread) reached trivial ?_, sees.moved thread _⟩
  simp only [EventLoop.step, EventLoop.go, sees.place here, sees.stop_task, running,
    Bool.false_eq_true, ↓reduceIte]

theorem Shown.unlock {thread : R} {after : EventLoop.After} (reached : Shown config shown)
    (here : shown.places thread = .unlocking after) :
    Shown config { shown.at thread (EventLoop.resume after) with epoll_mutex := none } := by
  obtain ⟨loop, reached, sees⟩ := reached
  have moved := sees.moved thread (EventLoop.resume after)
  have ran : EventLoop.step config loop (.go thread) =
      some ((loop.at thread (EventLoop.resume after)).unlock thread) := by
    simp only [EventLoop.step, EventLoop.go, sees.place here]
  exact ⟨_, .next _ reached trivial ran,
    ⟨moved.stop_task, rfl, moved.ready_event_num, moved.ready_event, moved.places⟩⟩

theorem Shown.received {thread : R} {fd : Fd} (reached : Shown config shown)
    (here : shown.places thread = .receiving fd) : Shown config (shown.at thread .testing) := by
  obtain ⟨loop, reached, sees⟩ := reached
  refine ⟨_, .next (.go thread) reached trivial ?_,
    (sees.note thread (.recv_request fd)).moved thread _⟩
  simp only [EventLoop.step, EventLoop.go, sees.place here]

theorem Shown.accepted {thread : R} {fd : Fd} (reached : Shown config shown)
    (here : shown.places thread = .accepting fd) :
    Shown config (shown.at thread (.unlocking .again)) := by
  obtain ⟨loop, reached, sees⟩ := reached
  refine ⟨_, .next (.accept thread false) reached trivial ?_,
    (sees.note thread (.accept fd)).moved thread _⟩
  simp only [EventLoop.step, EventLoop.accept, sees.place here, ↓reduceIte, Bool.false_eq_true]

theorem Shown.left {thread : R} (reached : Shown config shown)
    (here : shown.places thread = .waiting) (more : 0 < shown.ready_event_num) :
    Shown config (shown.at thread .counting) := by
  obtain ⟨loop, reached, sees⟩ := reached
  refine ⟨_, .next (.wait thread .failed) reached trivial ?_, sees.moved thread _⟩
  have positive : ¬ loop.ready_event_num ≤ 0 := by
    rw [sees.ready_event_num]
    omega
  simp only [EventLoop.step, EventLoop.wait, sees.place here, EventLoop.Returned, true_and,
    ↓reduceIte, positive]

theorem Shown.batch {thread : R} {events : List Fd} (reached : Shown config shown)
    (here : shown.places thread = .waiting) (done : ¬ 0 < shown.ready_event_num)
    (returned : EventLoop.Returned (.events events)) :
    Shown config { shown.at thread .counting with
      ready_event := events
      ready_event_num := events.length } := by
  obtain ⟨loop, reached, sees⟩ := reached
  have empty : loop.ready_event_num ≤ 0 := by
    rw [sees.ready_event_num]
    omega
  have ran : EventLoop.step config loop (.wait thread (.events events)) =
      some ((EventLoop.epoll_wait loop thread (.events events)).at thread .counting) := by
    simp only [EventLoop.step, EventLoop.wait, sees.place here, returned, and_self, ↓reduceIte,
      empty]
  refine ⟨_, .next _ reached trivial ran,
    ⟨sees.stop_task, sees.epoll_mutex, rfl, ?_, (sees.moved thread .counting).places⟩⟩
  intro slot inside
  have bound : slot < events.length := Int.ofNat_lt.mp inside
  simp [EventLoop.State.at, EventLoop.epoll_wait, bound]

/-- What is written where `epoll_wait` fails, with a count behind it. -/
def failed_wait (loop : EventLoop.State R) (result : Waited) (eintr : R → Bool) (num : Int) :
    EventLoop.State R :=
  { loop with
    log := .waited result :: loop.log
    ready_event_num := num
    eintr := eintr }

/-- `epoll_wait` returns -1, and the count goes down all the same. -/
theorem Shown.failed {thread : R} {result : Waited} (reached : Shown config shown)
    (here : shown.places thread = .waiting) (done : ¬ 0 < shown.ready_event_num)
    (failed : result = .interrupted ∨ result = .failed) :
    Shown config { shown.at thread (if result = .interrupted then .testing else .exited) with
      epoll_mutex := none
      ready_event_num := -1 - 1 } := by
  obtain ⟨loop, reached, sees⟩ := reached
  have empty : loop.ready_event_num ≤ 0 := by
    rw [sees.ready_event_num]
    omega
  -- `errno` is what decides where the thread goes behind the mutex.
  obtain ⟨eintr, told, ran⟩ : ∃ eintr, (eintr thread = decide (result = .interrupted)) ∧
      EventLoop.step config loop (.wait thread result) =
        some ((failed_wait loop result eintr (-1)).at thread .counting) := by
    rcases failed with rfl | rfl
    all_goals
      simp only [EventLoop.step, EventLoop.wait, sees.place here, EventLoop.Returned, and_self,
        ↓reduceIte, empty, EventLoop.epoll_wait]
      exact ⟨_, by simp, rfl⟩
  have counted : EventLoop.step config
      ((failed_wait loop result eintr (-1)).at thread .counting) (.go thread) =
        some ((failed_wait loop result eintr (-1 - 1)).at thread .failing) := by
    simp [EventLoop.step, EventLoop.go, EventLoop.State.at, failed_wait]
  have looked : EventLoop.step config
      ((failed_wait loop result eintr (-1 - 1)).at thread .failing) (.go thread) =
        some (((failed_wait loop result eintr (-1 - 1)).at thread
          (if result = Waited.interrupted then .testing else .exited)).unlock thread) := by
    simp [EventLoop.step, EventLoop.go, EventLoop.State.at, failed_wait, told]
  refine ⟨_, .next _ (.next _ (.next _ reached trivial ran) trivial counted) trivial looked,
    ⟨sees.stop_task, rfl, rfl, ?_, (sees.moved thread _).places⟩⟩
  intro slot inside
  have nothing : (slot : Int) < -1 - 1 := inside
  omega

theorem Shown.taken {thread : R} {fd : Fd} (reached : Shown config shown)
    (here : shown.places thread = .counting) (more : 0 < shown.ready_event_num)
    (event : shown.ready_event[(shown.ready_event_num - 1).toNat]? = some fd) :
    Shown config { shown.at thread (.handing fd) with
      ready_event_num := shown.ready_event_num - 1 } := by
  obtain ⟨loop, reached, sees⟩ := reached
  have nonnegative : ¬ loop.ready_event_num < 0 := by
    rw [sees.ready_event_num]
    omega
  have slot := sees.ready_event (shown.ready_event_num - 1).toNat (by omega)
  rw [event, Option.some.injEq] at slot
  have counted : EventLoop.step config loop (.go thread) =
      .some { loop.at thread .taking with ready_event_num := loop.ready_event_num - 1 } := by
    simp only [EventLoop.step, EventLoop.go, sees.place here, nonnegative, ↓reduceIte]
  have read : EventLoop.step config
      { loop.at thread .taking with ready_event_num := loop.ready_event_num - 1 } (.go thread) =
      .some ((({ loop.at thread .taking with
          ready_event_num := loop.ready_event_num - 1 } : EventLoop.State R).note thread
            (.read (loop.ready_event_num - 1) fd)).at thread (.handing fd)) := by
    rw [slot, ← sees.ready_event_num]
    simp [EventLoop.step, EventLoop.go, EventLoop.State.at]
  refine ⟨_, .next _ (.next _ reached trivial counted) trivial read, ⟨sees.stop_task,
    sees.epoll_mutex, congrArg (· - 1) sees.ready_event_num, ?_, ?_⟩⟩
  · intro slot inside
    have before : (slot : Int) < shown.ready_event_num - 1 := inside
    exact sees.ready_event slot (by omega)
  · simp only [View.at, EventLoop.State.at, EventLoop.State.note, sees.places,
      Function.update_idem]

theorem Shown.handed {thread : R} {fd : Fd} (reached : Shown config shown)
    (here : shown.places thread = .handing fd) :
    Shown config (shown.at thread
      (if fd = config.listen then .accepting fd
      else if fd = config.pipe_read then .unlocking .again
      else .unlocking (.recv_request fd))) := by
  obtain ⟨loop, reached, sees⟩ := reached
  have ran : EventLoop.step config loop (.go thread) =
      some (EventLoop.dispatch config loop thread fd) := by
    simp only [EventLoop.step, EventLoop.go, sees.place here]
  refine ⟨_, .next (.go thread) reached trivial ran, ?_⟩
  unfold EventLoop.dispatch
  split
  · exact sees.moved thread _
  · split
    · exact sees.moved thread _
    · exact (sees.note thread _).moved thread _

end Steps

/-! The steps of the server. -/

section Server
variable {config : Config}

theorem view_at (state : Server.State R L) (receiver : R) (place : Receiver) :
    view config (state.at receiver place) =
      (view config state).at receiver (seen config place) := by
  have places :
      (fun thread => seen config (Function.update state.receivers receiver place thread)) =
        Function.update (fun thread => seen config (state.receivers thread)) receiver
          (seen config place) := by
    funext thread
    by_cases same : thread = receiver
    · subst same
      simp
    · simp [same]
  rw [view, View.at, view, Server.State.at]
  simp only [places]

theorem view_stays (state next : Server.State R L) (receiver : R) (place : Receiver)
    (tables : view config next = view config state)
    (same : seen config place = seen config (state.receivers receiver)) :
    view config (next.at receiver place) = view config state := by
  rw [view_at, tables, same]
  exact congrArg (fun places => { view config state with places := places })
    (Function.update_eq_self receiver fun thread => seen config (state.receivers thread))

omit [DecidableEq R] in
theorem view_add (state : Server.State R L) (fd : Fd) :
    view config (Server.add_input_fd state fd) = view config state := by
  rw [Server.add_input_fd_eq]
  rfl

omit [DecidableEq R] in
theorem view_create (state : Server.State R L) (fd : Fd) (flag : BitVec 32) :
    view config (Server.create_handle state fd flag) = view config state := by
  rw [Server.create_handle_eq]
  rfl

omit [DecidableEq R] in
theorem view_released (state after : Server.State R L) (hdle : Server.HandleId)
    (value : Server.SocketHandle) (released : Server.Released state hdle value after) :
    view config after = view config state := by
  cases released <;> rfl

end Server

theorem shown_lock (config : Config) (state after : Server.State R L) (receiver : R)
    (shown : Shown config (view config state)) (ran : Server.lock state receiver = some after) :
    Shown config (view config after) := by
  unfold Server.lock at ran
  split at ran
  · rename_i place
    have here : (view config state).places receiver = .testing := congrArg (seen config) place
    have tested := shown.test here
    split at ran
    · rename_i stopped
      cases ran
      rw [view_at]
      rwa [show (view config state).stop_task = true from stopped, if_pos rfl] at tested
    · rename_i running
      have on : (view config state).stop_task = false := Bool.eq_false_iff.mpr running
      rw [on, if_neg Bool.false_ne_true] at tested
      split at ran
      · rename_i free
        cases ran
        have entered := tested.enter (at_place receiver _) free
        have waits := entered.again (at_place receiver _) on
        have same : view config { state.at receiver .locked with epoll_mutex := some receiver } =
            { (view config state).at receiver .waiting with epoll_mutex := some receiver } := by
          rw [← show seen config .locked = .waiting from rfl, ← view_at]
          rfl
        rw [same]
        simpa only [View.at, Function.update_idem] using waits
      · cases ran
  · cases ran

theorem shown_fetched (config : Config) (state : Server.State R L) (receiver : R)
    (waited : Waited) (events : List Fd) (num : Int) (shown : Shown config (view config state))
    (here : (view config state).places receiver = .waiting)
    (fetches : Server.fetch state waited = some (events, num)) (counted : ¬ num < 0) :
    0 < num ∧ Shown config { (view config state).at receiver .counting with
      ready_event := events
      ready_event_num := num } := by
  unfold Server.fetch at fetches
  split at fetches
  · rename_i more
    cases fetches
    exact ⟨more, shown.left here more⟩
  · rename_i done
    cases waited with
    | events batch =>
        dsimp only at fetches
        split at fetches
        · rename_i reported
          cases fetches
          have length := List.length_pos_iff.mpr reported.1
          exact ⟨by omega, shown.batch here done ⟨reported.1, reported.2.1⟩⟩
        · cases fetches
    | interrupted =>
        cases fetches
        exact absurd (by decide) counted
    | failed =>
        cases fetches
        exact absurd (by decide) counted

omit [DecidableEq R] in
theorem fetch_failed (state : Server.State R L) (waited : Waited) (events : List Fd) (num : Int)
    (fetches : Server.fetch state waited = some (events, num)) (negative : num < 0) :
    ¬ 0 < state.ready_event_num ∧ (waited = .interrupted ∨ waited = .failed) ∧
      events = state.ready_event ∧ num = -1 := by
  unfold Server.fetch at fetches
  split at fetches
  · rename_i more
    cases fetches
    omega
  · rename_i done
    cases waited with
    | events batch =>
        dsimp only at fetches
        split at fetches
        · cases fetches
          omega
        · cases fetches
    | interrupted =>
        cases fetches
        exact ⟨done, .inl rfl, rfl, rfl⟩
    | failed =>
        cases fetches
        exact ⟨done, .inr rfl, rfl, rfl⟩

theorem shown_dispatch (config : Config) (state : Server.State R L) (receiver : R) (fd : Fd)
    (shown : Shown config ((view config state).at receiver (.handing fd))) :
    Shown config (view config (Server.dispatch config state receiver fd)) := by
  have shown := shown.handed (at_place receiver _)
  rw [at_at] at shown
  unfold Server.dispatch
  split
  · rename_i listen
    rw [if_pos listen, listen] at shown
    rw [view_at]
    exact shown
  · rename_i other
    rw [if_neg other] at shown
    split
    · rename_i pipe
      rw [if_pos pipe] at shown
      have left := shown.unlock (at_place receiver _)
      rw [at_at, EventLoop.resume] at left
      have same : view config (state.at receiver .idle).unlock =
          { (view config state).at receiver .testing with epoll_mutex := none } := by
        rw [← show seen config .idle = .testing from rfl, ← view_at]
        rfl
      rwa [same]
    · rename_i client
      rw [if_neg client] at shown
      have left := shown.unlock (at_place receiver _)
      rw [at_at, EventLoop.resume] at left
      have same : view config ((Server.del_input_fd state fd).at receiver (.dispatched fd)).unlock =
          { (view config state).at receiver (.receiving fd) with epoll_mutex := none } := by
        rw [← show seen config (.dispatched fd) = .receiving fd from rfl,
          ← show view config (Server.del_input_fd state fd) = view config state from rfl, ← view_at]
        rfl
      rwa [same]

theorem shown_wait (config : Config) (state after : Server.State R L) (receiver : R)
    (waited : Waited) (shown : Shown config (view config state))
    (ran : Server.wait config state receiver waited = some after) :
    Shown config (view config after) := by
  unfold Server.wait at ran
  split at ran
  · rename_i place
    have here : (view config state).places receiver = .waiting := congrArg (seen config) place
    split at ran
    · cases ran
    · rename_i events num fetches
      dsimp only at ran
      split at ran
      · rename_i negative
        cases ran
        obtain ⟨done, failed, rfl, rfl⟩ := fetch_failed state waited events num fetches negative
        have left := shown.failed here done failed
        -- -1 from `epoll_wait`: the loop has tested errno where the server has left or come back.
        have image : seen config (if waited = .interrupted then .idle else .exited) =
            if waited = .interrupted then .testing else .exited := by
          split <;> rfl
        rw [← image] at left
        rw [← view_at] at left
        exact left
      · rename_i nonnegative
        obtain ⟨more, counting⟩ :=
          shown_fetched config state receiver waited events num shown here fetches nonnegative
        split at ran
        · cases ran
        · rename_i fd event
          cases ran
          have taken := counting.taken (at_place receiver _) more event
          apply shown_dispatch
          have same : (view config { state with
                ready_event := events
                ready_event_num := num - 1 }).at receiver (.handing fd) =
              { ((view config state).at receiver .counting).at receiver
                  (.handing fd) with
                ready_event := events
                ready_event_num := num - 1 } := by
            rw [at_at]
            rfl
          rw [same]
          exact taken
  · cases ran

theorem shown_idle (config : Config) (state : Server.State R L) (receiver : R)
    (shown : Shown config (view config state))
    (here : (view config state).places receiver = .accepting config.listen) :
    Shown config (view config (state.at receiver .idle).unlock) := by
  have left := (shown.accepted here).unlock (at_place receiver _)
  rw [at_at, EventLoop.resume] at left
  have same : view config (state.at receiver .idle).unlock =
      { (view config state).at receiver .testing with epoll_mutex := none } := by
    rw [← show seen config .idle = .testing from rfl, ← view_at]
    rfl
  rwa [same]

theorem shown_returned (config : Config) (state next : Server.State R L) (receiver : R) (fd : Fd)
    (shown : Shown config (view config state)) (tables : view config next = view config state)
    (here : (view config state).places receiver = .receiving fd) :
    Shown config (view config (next.at receiver .idle)) := by
  rw [view_at, tables]
  exact shown.received here

variable [Fintype R] [DecidableEq L]

/-- A step of the server is some steps of the loop, or none. -/
theorem shown_step (config : Config) (state after : Server.State R L)
    (action : Server.Action R L) (ran : Server.step config state action = some after)
    (shown : Shown config (view config state)) : Shown config (view config after) := by
  have stays {receiver place} (next : Server.State R L)
      (tables : view config next = view config state)
      (same : seen config place = seen config (state.receivers receiver)) :
      Shown config (view config (next.at receiver place)) := by
    rw [view_stays state next receiver place tables same]
    exact shown
  -- Inside one place of the loop the server takes steps that the loop does not see.
  cases Server.step_moved config state after action ran with
  | exit place => exact shown_lock config state _ _ shown ran
  | lock place free => exact shown_lock config state _ _ shown ran
  | waitFailed next ends place fetches negative => exact shown_wait config state _ _ _ shown ran
  | waitListen place fetches counted event => exact shown_wait config state _ _ _ shown ran
  | waitPipe place fetches counted event => exact shown_wait config state _ _ _ shown ran
  | waitClient place fetches counted event client => exact shown_wait config state _ _ _ shown ran
  | acceptNone place => exact shown_idle config state _ shown (congrArg (seen config) place)
  | @acceptSome receiver fd place free =>
      exact stays { state with
        files := Function.update state.files fd (some (.conn state.nextConn))
        nextConn := state.nextConn + 1 } rfl (congrArg (seen config) place).symm
  | count place =>
      exact stays { state with now_connections := state.now_connections + 1 } rfl
        (congrArg (seen config) place).symm
  | create place => exact stays _ (view_create state _ _) (congrArg (seen config) place).symm
  | add place => exact stays _ (view_add state _) (congrArg (seen config) place).symm
  | acquire place found live => exact stays _ rfl (congrArg (seen config) place).symm
  | headerComplete place live file ran => exact stays _ rfl (congrArg (seen config) place).symm
  | headerError place live file ran => exact stays _ rfl (congrArg (seen config) place).symm
  | bodyRejected place rejected => exact stays _ rfl (congrArg (seen config) place).symm
  | bodyComplete place accepted live file ran =>
      exact stays _ rfl (congrArg (seen config) place).symm
  | bodyShort place accepted live file ran short =>
      exact stays _ rfl (congrArg (seen config) place).symm
  | @submit receiver fd hdle request conn place alive =>
      exact stays { state with
        nextWorker := state.nextWorker + 1
        task_list := state.task_list ++ [⟨state.nextWorker, hdle, conn, request, []⟩]
        received := Function.update state.received conn
          (state.received conn ++ [state.nextWorker]) } rfl (congrArg (seen config) place).symm
  | submitFlushed place flushed =>
      exact stays { state with nextWorker := state.nextWorker + 1 } rfl
        (congrArg (seen config) place).symm
  | rearmSubmitted place =>
      exact shown_returned config state _ _ _ shown (view_add state _)
        (congrArg (seen config) place)
  | rearmRejected place =>
      exact shown_returned config state _ _ _ shown (view_add state _)
        (congrArg (seen config) place)
  | flag place live => exact stays _ rfl (congrArg (seen config) place).symm
  | drop place live released =>
      exact shown_returned config state _ _ _ shown (view_released state _ _ _ released)
        (congrArg (seen config) place)
  | get place alive queued => exact shown
  | getNull place flushed => exact shown
  | send place live file => exact shown
  | @release loader worker value next place live released =>
      have same : view config (next.loading loader .waiting) = view config state :=
        view_released state next _ value released
      rw [same]
      exact shown
  | arrive => exact shown
  | stop => exact shown.stop
  | flush exited => exact shown

/-- Every reachable state of the server is seen in a reachable state of the loop. -/
theorem server_shown (config : Config) (state : Server.State R L)
    (reached : Transition.Reachable (Server.step config) (· = Server.State.initial config R L)
      state) : Shown config (view config state) := by
  refine reached.invariant (fun state => Shown config (view config state)) ?_ ?_
  · rintro _ rfl
    exact shown_initial rfl rfl rfl fun _ => rfl
  · intro before action after _ _ shown ran
    exact shown_step config before after action ran shown

end AsrServer.ServerLoop
