import AsrServer.Lifetime

/-!
One receiver for a connection. From `del_input_fd` to `add_input_fd` the
descriptor's stage names the thread that holds it, so a second one cannot be
inside `recv_request` for it. Between flagging its handle and releasing it a
thread holds no stage; what keeps others out then is that the handle, which its
own reference keeps alive, is still in `m_fd_set` under that descriptor.
-/

namespace AsrServer.Receivers

open Bytes ReadPath Server Ownership References Lifetime

variable {R L : Type}

def Inside (fd : Fd) : Receiver → Prop
  | .dispatched own | .receiving own _ | .parsed own _ _ _ | .submitting own _ _ _
  | .submitted own | .rejecting own _ | .failing own _ | .flagged own _ => own = fd
  | _ => False

/-- A thread that has flagged a handle has done so for its own descriptor, and no
other thread has flagged the same one. -/
structure Flaggers (state : State R L) : Prop where
  marked : ∀ receiver fd hdle, state.receivers receiver = .flagged fd hdle →
    ∀ value, state.handles hdle = some value → value.fd = fd ∧ value.failed = true
  single : ∀ receiver other fd place hdle, state.receivers receiver = .flagged fd hdle →
    state.receivers other = .flagged place hdle → receiver = other

/-- At most one receiver is inside `recv_request` for a descriptor, and one that is
registered has none and a handle without the error flag. -/
structure Exclusive (state : State R L) : Prop where
  one : ∀ receiver other fd, Inside fd (state.receivers receiver) →
    Inside fd (state.receivers other) → receiver = other
  registered : ∀ fd conn, state.files fd = some (.conn conn) → state.interest fd = true →
    (∀ receiver, ¬ Inside fd (state.receivers receiver)) ∧
      ∀ hdle value, state.m_fd_set.lookup fd = some hdle → state.handles hdle = some value →
        value.failed = false

section Step
variable [DecidableEq R] [DecidableEq L] {config : Config} {table : Fd → Stage R}
  {state : State R L}

/-- What a step does to the threads: none moves, one moves to a place where it has
flagged nothing, or one flags its handle. -/
inductive Threads (state after : State R L) : Prop where
  | still (same : after.receivers = state.receivers)
  | plain (receiver : R) (place : Receiver)
      (moves : after.receivers = Function.update state.receivers receiver place)
      (unflagged : ∀ fd hdle, place ≠ .flagged fd hdle)
  | flags (receiver : R) (fd : Fd) (hdle : HandleId) (value : SocketHandle)
      (fails : state.receivers receiver = .failing fd hdle)
      (live : state.handles hdle = some value)
      (moves : after.receivers = Function.update state.receivers receiver (.flagged fd hdle))
      (handles : after.handles hdle =
        some { value with flag := value.flag ||| ERROR_SOCKET })

theorem moved_threads (action : Action R L) (after : State R L)
    (moved : Moved config state action after) : Threads state after := by
  cases moved with
  | get | getNull | send | arrive | stop | flush => exact .still rfl
  | release place live released => cases released <;> exact .still rfl
  | drop place live released => cases released <;> exact .plain _ .idle rfl nofun
  | flag place live => exact .flags _ _ _ _ place live rfl (Function.update_self ..)
  | waitFailed next ends =>
      refine .plain _ next rfl ?_
      rcases ends with same | same <;> rw [same] <;> exact nofun
  | @create receiver fd place =>
      refine .plain receiver (.inserted fd) ?_ nofun
      rw [create_handle_eq]
      rfl
  | @add receiver fd place =>
      refine .plain receiver .accepting ?_ nofun
      rw [add_input_fd_eq]
      rfl
  | @rearmSubmitted receiver | @rearmRejected receiver =>
      refine .plain receiver .idle ?_ nofun
      rw [add_input_fd_eq]
      rfl
  | _ => exact .plain _ _ rfl nofun

theorem moved_flaggers [Fintype R] [Fintype L] (linked : Linked config table state)
    (fresh : Fresh state) (flaggers : Flaggers state) (action : Action R L) (after : State R L)
    (moved : Moved config state action after) : Flaggers after := by
  -- What an earlier flag says of the handle is kept, since the handle is not a new one.
  have kept (receiver : R) (fd : Fd) (hdle : HandleId)
      (place : state.receivers receiver = .flagged fd hdle) (value : SocketHandle)
      (live : after.handles hdle = some value) : value.fd = fd ∧ value.failed = true := by
    rcases moved_survives linked action after moved hdle value live with new | survives
    · have used := uses_le state receiver hdle
      rw [place, (fresh hdle new).1] at used
      simp [uses] at used
    · obtain ⟨old, held, same, failed⟩ := survives.held
      obtain ⟨here, marked⟩ := flaggers.marked receiver fd hdle place old held
      exact ⟨same.symm.trans here, failed marked⟩
  cases moved_threads action after moved with
  | still same =>
      constructor
      · intro receiver fd hdle place
        exact kept receiver fd hdle (same ▸ place)
      · intro receiver other fd place hdle first second
        rw [same] at first second
        exact flaggers.single receiver other fd place hdle first second
  | plain acting target moves unflagged =>
      have before (receiver : R) (fd : Fd) (hdle : HandleId)
          (there : after.receivers receiver = .flagged fd hdle) :
          state.receivers receiver = .flagged fd hdle := by
        rw [moves] at there
        by_cases here : receiver = acting
        · rw [here, Function.update_self] at there
          exact absurd there (unflagged fd hdle)
        · rwa [Function.update_of_ne here] at there
      constructor
      · intro receiver fd hdle place
        exact kept receiver fd hdle (before receiver fd hdle place)
      · intro receiver other fd place hdle first second
        exact flaggers.single receiver other fd place hdle (before _ _ _ first)
          (before _ _ _ second)
  | flags acting own held value fails live moves handles =>
      obtain ⟨conn, stage⟩ := fails ▸ linked.owners acting
      obtain ⟨here, unmarked, _⟩ := held_value linked acting own held conn value stage live
      have before (receiver : R) (fd : Fd) (hdle : HandleId)
          (there : after.receivers receiver = .flagged fd hdle) :
          (receiver = acting ∧ fd = own ∧ hdle = held) ∨
            state.receivers receiver = .flagged fd hdle := by
        rw [moves] at there
        by_cases acts : receiver = acting
        · rw [acts, Function.update_self] at there
          cases there
          exact Or.inl ⟨acts, rfl, rfl⟩
        · rw [Function.update_of_ne acts] at there
          exact Or.inr there
      -- The handle was not flagged, so no other thread had flagged it.
      have alone (receiver : R) (fd : Fd) (there : state.receivers receiver = .flagged fd held) :
          False := by
        have marked := (flaggers.marked receiver fd held there value live).2
        rw [unmarked] at marked
        cases marked
      constructor
      · intro receiver fd hdle place next found
        rcases before receiver fd hdle place with ⟨_, sameFd, sameHandle⟩ | earlier
        · subst sameFd sameHandle
          rw [handles] at found
          cases found
          exact ⟨here, failed_flag value⟩
        · exact kept receiver fd hdle earlier next found
      · intro receiver other fd place hdle first second
        rcases before receiver fd hdle first with ⟨one, _, same⟩ | earlier <;>
          rcases before other place hdle second with ⟨two, _, again⟩ | older
        · rw [one, two]
        · exact (alone other place (same ▸ older)).elim
        · exact (alone receiver fd (again ▸ earlier)).elim
        · exact flaggers.single receiver other fd place hdle earlier older

end Step

section Runs
variable [DecidableEq R] [Fintype R] [DecidableEq L] [Fintype L] {config : Config}

theorem reachable_flaggers (state : State R L) (reached : Running config state) :
    Flaggers state := by
  refine reached.invariant Flaggers ?_ ?_
  · intro state start
    subst start
    exact ⟨nofun, nofun⟩
  · intro before action after earlier _ flaggers ran
    obtain ⟨table, linked⟩ := reachable_linked before earlier
    exact moved_flaggers linked (reachable_tracked before earlier).fresh flaggers action after
      (step_moved config before after action ran)

omit [DecidableEq R] [Fintype R] [DecidableEq L] [Fintype L] in
/-- A thread inside `recv_request` holds the stage of its descriptor, or has flagged
its handle. -/
theorem inside_owner (table : Fd → Stage R) (receiver : R) (place : Receiver) (fd : Fd)
    (owns : Owns table receiver place) (inside : Inside fd place) :
    (table fd).owner = some receiver ∨ ∃ hdle, place = .flagged fd hdle := by
  cases place <;> simp only [Inside] at inside <;> subst inside <;> simp only [Owns] at owns
  all_goals
    first
      | exact Or.inr ⟨_, rfl⟩
      | (left
         obtain ⟨hdle, conn, held⟩ := owns
         rw [held]
         rfl)
      | (left
         obtain ⟨conn, held⟩ := owns
         rw [held]
         rfl)
      | (left
         rw [owns]
         rfl)

theorem flagged_stage (table : Fd → Stage R) (state : State R L)
    (linked : Linked config table state) (reached : RunningCovered config state) (receiver : R)
    (fd : Fd) (hdle : HandleId) (place : state.receivers receiver = .flagged fd hdle) :
    ∃ conn, table fd = .flagged hdle conn := by
  have used := uses_le state receiver hdle
  rw [place] at used
  obtain ⟨value, live⟩ := live_user state reached hdle
    (Nat.lt_of_lt_of_le Nat.one_pos (by simpa [uses] using used))
  obtain ⟨here, failed⟩ :=
    (reachable_flaggers state reached.reachable).marked receiver fd hdle place value live
  exact here ▸ linked.failed hdle value live failed

/-- In a run in which no count of a flagged handle has wrapped a connection has one
receiver, and is registered only while it has none. -/
theorem exclusive_receiver (state : State R L) (reached : RunningCovered config state) :
    Exclusive state := by
  obtain ⟨table, linked⟩ := reachable_linked state reached.reachable
  have flaggers := reachable_flaggers state reached.reachable
  have stage (receiver : R) (fd : Fd) (hdle : HandleId)
      (place : state.receivers receiver = .flagged fd hdle) :
      ∃ conn, table fd = .flagged hdle conn :=
    flagged_stage table state linked reached receiver fd hdle place
  constructor
  · intro receiver other fd first second
    rcases inside_owner table receiver _ fd (linked.owners receiver) first with mine | ⟨hdle, place⟩
      <;> rcases inside_owner table other _ fd (linked.owners other) second with
        his | ⟨again, there⟩
    · exact Option.some.inj (mine.symm.trans his)
    · obtain ⟨conn, same⟩ := stage other fd again there
      rw [same] at mine
      cases mine
    · obtain ⟨conn, same⟩ := stage receiver fd hdle place
      rw [same] at his
      cases his
    · obtain ⟨conn, one⟩ := stage receiver fd hdle place
      obtain ⟨id, two⟩ := stage other fd again there
      rw [one] at two
      cases two
      exact flaggers.single receiver other fd fd hdle place there
  · intro fd conn file armed
    obtain ⟨hdle, id, held⟩ : ∃ hdle id, table fd = .armed hdle id := by
      rw [linked.file] at file
      rw [linked.interest] at armed
      cases found : table fd <;> rw [found] at file armed <;>
        simp [Stage.place] at file armed ⊢
    constructor
    · intro receiver inside
      rcases inside_owner table receiver _ fd (linked.owners receiver) inside with
        mine | ⟨again, place⟩
      · rw [held] at mine
        cases mine
      · obtain ⟨_, same⟩ := stage receiver fd again place
        rw [held] at same
        cases same
    · intro other value entry live
      rw [linked.mapped, held] at entry
      cases entry
      obtain ⟨found, here, _, core⟩ := linked.entry fd hdle (by rw [held]; rfl)
      rw [live] at here
      cases here
      rw [held] at core
      simp only [Stage.place, Option.some.injEq, Prod.mk.injEq, true_and] at core
      exact core.symm

end Runs

theorem exclusive_receiver_two : ∃ state : State (Fin 2) (Fin 1),
    (state.deleted = [0] ∧ state.receivers 0 = .parsed 5 1 [] 1 ∧
      state.receivers 1 = .receiving 6 2) ∧ Exclusive state := by
  obtain ⟨state, reached, shown⟩ := covered_run
    (flaggedRun 0 0 ++ connect 0 5 ++ connect 1 6 ++ [.arrive 1 crlfcrlf, .arrive 2 crlfcrlf] ++
      event 0 5 ++ [.acquire 0, .readHeader 0 [512]] ++ event 1 6 ++ [.acquire 1])
    (fun state : State (Fin 2) (Fin 1) => decide (state.deleted = [0] ∧
      state.receivers 0 = .parsed 5 1 [] 1 ∧ state.receivers 1 = .receiving 6 2))
    (by decide +kernel : (Transition.execWhile (step sample) _ _ _).any _ = true)
  exact ⟨state, of_decide_eq_true shown, exclusive_receiver state reached⟩

/-- When the count has wrapped, a new connection gets the descriptor of a handle
that was deleted under its receiver, and both have a thread inside `recv_request`. -/
theorem wrapped_count_admits_second :
    ∃ state : State (Fin 2) (Fin 1), Running sample state ∧ ¬ Exclusive state := by
  obtain ⟨state, reached, flagged, idle, deleted, closed, absent, free, running, taken,
    listening⟩ := freed_reached
  suffices ran : ∃ after, Transition.exec (step sample) state
      (connect 1 5 ++ .arrive state.nextConn crlfcrlf :: event 1 5) = some after ∧
      after.receivers 0 = .flagged 5 0 ∧ after.receivers 1 = .dispatched 5 by
    obtain ⟨after, ran, first, second⟩ := ran
    refine ⟨after, Transition.exec_reachable reached _ ran, ?_⟩
    intro exclusive
    have same := exclusive.one 0 1 5 (by rw [first]; rfl) (by rw [second]; rfl)
    cases same
  refine ⟨?after, ?ran, ?kept⟩
  case ran =>
    simp [Transition.exec, connect, event, step, lock, wait, fetch, Reported, dispatch, accept,
      count, create, create_handle, insert_handle, add, State.at, State.put, State.unlock,
      del_input_fd, add_input_fd, MAX_EPOLL_EVENT_NUM, sample, idle, free, running, taken,
      listening, closed, absent]
    rfl
  case kept => simp [flagged]

end AsrServer.Receivers
