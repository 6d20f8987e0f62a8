import AsrServer.Server

/-!
What one action can do, said once. `Moved` lists the outcomes of `step` with the
guard and the state of each; the invariants of the server are proved by cases
on it and never unfold an action.
-/

namespace AsrServer.Server

open Bytes ReadPath Reply

variable {R L : Type} [DecidableEq R] [Fintype R] [DecidableEq L]

/-- The two outcomes of `release_handle` on a live handle. -/
inductive Released (state : State R L) (hdle : HandleId) (value : SocketHandle) :
    State R L → Prop where
  | kept (still : ¬ (value.ref - 1 = 0 ∧ value.failed = true)) :
      Released state hdle value (state.put hdle { value with ref := value.ref - 1 })
  | closed (last : value.ref - 1 = 0) (failed : value.failed = true) :
      Released state hdle value
        { del_input_fd state value.fd with
          handles := Function.update state.handles hdle none
          files := Function.update state.files value.fd none
          m_fd_set := state.m_fd_set.erase value.fd
          now_connections := state.now_connections - 1
          deleted := hdle :: state.deleted }

omit [DecidableEq R] [Fintype R] [DecidableEq L] in
theorem release_released (state after : State R L) (hdle : HandleId)
    (ran : release_handle state hdle = some after) :
    ∃ value, state.handles hdle = some value ∧ Released state hdle value after := by
  unfold release_handle at ran
  cases live : state.handles hdle with
  | none => simp [live] at ran
  | some value =>
      simp only [live] at ran
      refine ⟨value, rfl, ?_⟩
      split at ran
      · rename_i last
        cases ran
        exact .closed last.1 last.2
      · rename_i still
        cases ran
        exact .kept still

omit [DecidableEq R] [Fintype R] [DecidableEq L] in
theorem create_absent (state : State R L) (fd : Fd) (flag : BitVec 32)
    (absent : fd ∉ state.m_fd_set) :
    create_handle state fd flag =
      { state.put state.nextHandle ⟨fd, 0, flag, []⟩ with
        nextHandle := state.nextHandle + 1
        m_fd_set := state.m_fd_set.insert fd state.nextHandle } :=
  if_neg absent

omit [DecidableEq R] [Fintype R] [DecidableEq L] in
theorem create_handle_eq (state : State R L) (fd : Fd) (flag : BitVec 32) :
    create_handle state fd flag =
      { state with
        handles := (create_handle state fd flag).handles
        m_fd_set := (create_handle state fd flag).m_fd_set
        nextHandle := state.nextHandle + 1 } := by
  unfold create_handle insert_handle
  split <;> rfl

omit [DecidableEq R] [Fintype R] [DecidableEq L] in
theorem add_input_fd_eq (state : State R L) (fd : Fd) :
    add_input_fd state fd = { state with interest := (add_input_fd state fd).interest } := by
  unfold add_input_fd
  split <;> rfl

omit [DecidableEq R] [Fintype R] [DecidableEq L] in
theorem add_open (state : State R L) (fd : Fd) (file : File)
    (found : state.files fd = some file) :
    add_input_fd state fd =
      { state with interest := Function.update state.interest fd true } :=
  if_pos (by rw [found]; rfl)

omit [DecidableEq R] [Fintype R] [DecidableEq L] in
theorem connected_iff (state : State R L) (hdle : HandleId) (value : SocketHandle)
    (conn : ConnId) :
    connected state hdle = some (value, conn) ↔
      state.handles hdle = some value ∧ state.files value.fd = some (.conn conn) := by
  unfold connected
  cases live : state.handles hdle with
  | none => simp
  | some held =>
      dsimp only
      split
      · rename_i id file
        simp only [Option.some.injEq, Prod.mk.injEq]
        constructor
        · rintro ⟨same, id⟩
          subst same id
          exact ⟨rfl, file⟩
        · rintro ⟨same, other⟩
          subst same
          rw [file] at other
          cases other
          exact ⟨rfl, rfl⟩
      · rename_i absent
        simp only [reduceCtorEq, Option.some.injEq, false_iff, not_and]
        intro same other
        subst same
        exact absent conn other

def State.fetched (state : State R L) (events : List Fd) (num : Int) : State R L :=
  { state with ready_event := events, ready_event_num := num - 1 }

inductive Moved (config : Config) (state : State R L) : Action R L → State R L → Prop where
  | exit {receiver} (place : state.receivers receiver = .idle) :
      Moved config state (.lock receiver) (state.at receiver .exited)
  | lock {receiver} (place : state.receivers receiver = .idle)
      (free : state.epoll_mutex = none) :
      Moved config state (.lock receiver)
        { state.at receiver .locked with epoll_mutex := some receiver }
  | waitFailed {receiver waited events num} (next : Receiver)
      (ends : next = .idle ∨ next = .exited)
      (place : state.receivers receiver = .locked)
      (fetches : fetch state waited = some (events, num)) (negative : num < 0) :
      Moved config state (.wait receiver waited)
        ((state.fetched events num).at receiver next).unlock
  | waitListen {receiver waited events num}
      (place : state.receivers receiver = .locked)
      (fetches : fetch state waited = some (events, num)) (counted : ¬ num < 0)
      (event : events[(num - 1).toNat]? = .some config.listen) :
      Moved config state (.wait receiver waited)
        ((state.fetched events num).at receiver .accepting)
  | waitPipe {receiver waited events num}
      (place : state.receivers receiver = .locked)
      (fetches : fetch state waited = some (events, num)) (counted : ¬ num < 0)
      (event : events[(num - 1).toNat]? = .some config.pipe_read) :
      Moved config state (.wait receiver waited)
        ((state.fetched events num).at receiver .idle).unlock
  | waitClient {receiver waited events num fd}
      (place : state.receivers receiver = .locked)
      (fetches : fetch state waited = some (events, num)) (counted : ¬ num < 0)
      (event : events[(num - 1).toNat]? = .some fd)
      (client : fd ≠ config.listen ∧ fd ≠ config.pipe_read) :
      Moved config state (.wait receiver waited)
        ((del_input_fd (state.fetched events num) fd).at receiver (.dispatched fd)).unlock
  | acceptNone {receiver} (place : state.receivers receiver = .accepting) :
      Moved config state (.accept receiver none) (state.at receiver .idle).unlock
  | acceptSome {receiver fd} (place : state.receivers receiver = .accepting)
      (free : state.files fd = none) :
      Moved config state (.accept receiver (some fd))
        { state.at receiver (.accepted fd) with
          files := Function.update state.files fd (some (.conn state.nextConn))
          nextConn := state.nextConn + 1 }
  | count {receiver fd} (place : state.receivers receiver = .accepted fd) :
      Moved config state (.count receiver)
        { state.at receiver (.counted fd) with now_connections := state.now_connections + 1 }
  | create {receiver fd} (place : state.receivers receiver = .counted fd) :
      Moved config state (.create receiver)
        ((create_handle state fd LISTEN_PORT_1).at receiver (.inserted fd))
  | add {receiver fd} (place : state.receivers receiver = .inserted fd) :
      Moved config state (.add receiver) ((add_input_fd state fd).at receiver .accepting)
  | acquire {receiver fd hdle value} (place : state.receivers receiver = .dispatched fd)
      (found : state.m_fd_set.lookup fd = some hdle) (live : state.handles hdle = some value) :
      Moved config state (.acquire receiver)
        ((state.put hdle { value with ref := value.ref + 1 }).at receiver (.receiving fd hdle))
  | headerComplete {receiver plan fd hdle value conn http left}
      (place : state.receivers receiver = .receiving fd hdle)
      (live : state.handles hdle = some value)
      (file : state.files value.fd = some (.conn conn))
      (ran : read_http_header_timeout ⟨value.read_buf, state.unread conn, plan⟩ =
        (.complete http, left)) :
      Moved config state (.readHeader receiver plan)
        ((state.after hdle value conn left).at receiver (.parsed fd hdle http conn))
  | headerError {receiver plan fd hdle value conn left}
      (place : state.receivers receiver = .receiving fd hdle)
      (live : state.handles hdle = some value)
      (file : state.files value.fd = some (.conn conn))
      (ran : read_http_header_timeout ⟨value.read_buf, state.unread conn, plan⟩ =
        (.error, left)) :
      Moved config state (.readHeader receiver plan)
        ((state.after hdle value conn left).at receiver (.failing fd hdle))
  | bodyRejected {receiver plan fd hdle http origin}
      (place : state.receivers receiver = .parsed fd hdle http origin)
      (rejected : verdict config.info http = none) :
      Moved config state (.readBody receiver plan) (state.at receiver (.rejecting fd hdle))
  | bodyComplete {receiver plan fd hdle http origin value conn length request left}
      (place : state.receivers receiver = .parsed fd hdle http origin)
      (accepted : verdict config.info http = some length)
      (live : state.handles hdle = some value)
      (file : state.files value.fd = some (.conn conn))
      (ran : readn_timeout ⟨value.read_buf, state.unread conn, plan⟩ length =
        (.ret length request, left)) :
      Moved config state (.readBody receiver plan)
        ((state.after hdle value conn left).at receiver (.submitting fd hdle request origin))
  | bodyShort {receiver plan fd hdle http origin value conn length buf_len request left}
      (place : state.receivers receiver = .parsed fd hdle http origin)
      (accepted : verdict config.info http = some length)
      (live : state.handles hdle = some value)
      (file : state.files value.fd = some (.conn conn))
      (ran : readn_timeout ⟨value.read_buf, state.unread conn, plan⟩ length =
        (.ret buf_len request, left)) (short : buf_len ≠ length) :
      Moved config state (.readBody receiver plan)
        ((state.after hdle value conn left).at receiver (.failing fd hdle))
  | submit {receiver fd hdle request conn}
      (place : state.receivers receiver = .submitting fd hdle request conn)
      (alive : state.alive = true) :
      Moved config state (.submit receiver)
        { state.at receiver (.submitted fd) with
          nextWorker := state.nextWorker + 1
          task_list := state.task_list ++ [⟨state.nextWorker, hdle, conn, request, []⟩]
          received := Function.update state.received conn
            (state.received conn ++ [state.nextWorker]) }
  | submitFlushed {receiver fd hdle request conn}
      (place : state.receivers receiver = .submitting fd hdle request conn)
      (flushed : state.alive = false) :
      Moved config state (.submit receiver)
        { state.at receiver (.submitted fd) with nextWorker := state.nextWorker + 1 }
  | rearmSubmitted {receiver fd} (place : state.receivers receiver = .submitted fd) :
      Moved config state (.rearm receiver) ((add_input_fd state fd).at receiver .idle)
  | rearmRejected {receiver fd hdle} (place : state.receivers receiver = .rejecting fd hdle) :
      Moved config state (.rearm receiver)
        { (add_input_fd state fd).at receiver .idle with
          invalid := Function.update state.invalid hdle (state.invalid hdle + 1) }
  | flag {receiver fd hdle value} (place : state.receivers receiver = .failing fd hdle)
      (live : state.handles hdle = some value) :
      Moved config state (.flag receiver)
        ((state.put hdle { value with flag := value.flag ||| ERROR_SOCKET }).at receiver
          (.flagged fd hdle))
  | drop {receiver fd hdle value next} (place : state.receivers receiver = .flagged fd hdle)
      (live : state.handles hdle = some value) (released : Released state hdle value next) :
      Moved config state (.drop receiver) (next.at receiver .idle)
  | get {loader worker rest} (place : state.loaders loader = .waiting)
      (alive : state.alive = true) (queued : state.task_list = worker :: rest) :
      Moved config state (.get loader)
        { state.loading loader (.working worker) with task_list := rest }
  | getNull {loader} (place : state.loaders loader = .waiting)
      (flushed : state.alive = false) :
      Moved config state (.get loader) (state.loading loader .finished)
  | send {loader timestr headerPlan bodyPlan worker value conn}
      (place : state.loaders loader = .working worker)
      (live : state.handles worker.handle = some value)
      (file : state.files value.fd = some (.conn conn)) :
      Moved config state (.send loader timestr headerPlan bodyPlan)
        { state.loading loader (.replied worker) with
          output := Function.update state.output conn
            (state.output conn ++ (worker.sent timestr headerPlan bodyPlan).written)
          sends := Function.update state.sends conn
            (state.sends conn ++ [worker.sent timestr headerPlan bodyPlan])
          answered := Function.update state.answered conn
            (state.answered conn ++ [worker.id]) }
  | release {loader worker value next} (place : state.loaders loader = .replied worker)
      (live : state.handles worker.handle = some value)
      (released : Released state worker.handle value next) :
      Moved config state (.release loader) (next.loading loader .waiting)
  | arrive {conn bytes} :
      Moved config state (.arrive conn bytes)
        { state with unread := Function.update state.unread conn (state.unread conn ++ bytes) }
  | stop : Moved config state .stop { state with stop_task := true }
  | flush (exited : ∀ receiver, state.receivers receiver = .exited) :
      Moved config state .flush { state with alive := false }

omit [Fintype R] in
theorem wait_moved (config : Config) (state after : State R L) (receiver : R) (waited : Waited)
    (ran : wait config state receiver waited = some after) :
    Moved config state (.wait receiver waited) after := by
  unfold wait at ran
  split at ran
  · rename_i place
    cases fetches : fetch state waited with
    | none => simp [fetches] at ran
    | some fetched =>
        obtain ⟨events, num⟩ := fetched
        simp only [fetches] at ran
        split at ran
        · rename_i negative
          cases ran
          refine .waitFailed _ ?_ place fetches negative
          split
          · exact Or.inl rfl
          · exact Or.inr rfl
        · rename_i counted
          split at ran
          · cases ran
          · rename_i fd event
            cases ran
            unfold dispatch
            split
            · rename_i listen
              exact .waitListen place fetches counted (listen ▸ event)
            · rename_i listen
              split
              · rename_i pipe
                exact .waitPipe place fetches counted (pipe ▸ event)
              · rename_i pipe
                exact .waitClient place fetches counted event ⟨listen, pipe⟩
  · cases ran

omit [Fintype R] in
theorem accept_moved (config : Config) (state after : State R L) (receiver : R)
    (new : Option Fd) (ran : accept state receiver new = some after) :
    Moved config state (.accept receiver new) after := by
  unfold accept at ran
  split at ran
  · rename_i place
    cases new with
    | none =>
        cases ran
        exact .acceptNone place
    | some fd =>
        dsimp only at ran
        split at ran
        · rename_i free
          cases ran
          exact .acceptSome place free
        · cases ran
  · cases ran

omit [Fintype R] in
theorem acquire_moved (config : Config) (state after : State R L) (receiver : R)
    (ran : acquire state receiver = some after) :
    Moved config state (.acquire receiver) after := by
  unfold acquire at ran
  split at ran
  · rename_i fd place
    cases found : state.m_fd_set.lookup fd with
    | none => simp [found] at ran
    | some hdle =>
        cases live : state.handles hdle with
        | none => simp [found, live] at ran
        | some value =>
            simp only [found, live] at ran
            cases ran
            exact .acquire place found live
  · cases ran

omit [Fintype R] in
theorem readHeader_moved (config : Config) (state after : State R L) (receiver : R)
    (plan : List Nat) (ran : readHeader state receiver plan = some after) :
    Moved config state (.readHeader receiver plan) after := by
  unfold readHeader at ran
  split at ran
  · rename_i fd hdle place
    cases found : connected state hdle with
    | none => simp [found] at ran
    | some pair =>
        obtain ⟨value, conn⟩ := pair
        simp only [found] at ran
        obtain ⟨live, file⟩ := (connected_iff state hdle value conn).mp found
        split at ran
        · rename_i http left read
          cases ran
          exact .headerComplete place live file read
        · rename_i left read
          cases ran
          exact .headerError place live file read
        · cases ran
  · cases ran

omit [Fintype R] in
theorem readBody_moved (config : Config) (state after : State R L) (receiver : R)
    (plan : List Nat) (ran : readBody config state receiver plan = some after) :
    Moved config state (.readBody receiver plan) after := by
  unfold readBody at ran
  split at ran
  · rename_i fd hdle http origin place
    cases accepted : verdict config.info http with
    | none =>
        simp only [accepted] at ran
        cases ran
        exact .bodyRejected place accepted
    | some length =>
        cases found : connected state hdle with
        | none => simp [accepted, found] at ran
        | some pair =>
            obtain ⟨value, conn⟩ := pair
            simp only [accepted, found] at ran
            obtain ⟨live, file⟩ := (connected_iff state hdle value conn).mp found
            split at ran
            · rename_i buf_len request left read
              split at ran
              · rename_i whole
                subst whole
                cases ran
                exact .bodyComplete place accepted live file read
              · rename_i short
                cases ran
                exact .bodyShort place accepted live file read short
            · cases ran
  · cases ran

omit [Fintype R] in
theorem submit_moved (config : Config) (state after : State R L) (receiver : R)
    (ran : submit state receiver = some after) :
    Moved config state (.submit receiver) after := by
  unfold submit at ran
  split at ran
  · rename_i fd hdle request conn place
    dsimp only at ran
    split at ran
    · rename_i alive
      cases ran
      exact .submit place alive
    · rename_i flushed
      cases ran
      exact .submitFlushed place (Bool.eq_false_iff.mpr flushed)
  · cases ran

omit [Fintype R] in
theorem send_moved (config : Config) (state after : State R L) (loader : L)
    (timestr : List Byte) (headerPlan bodyPlan : List WriteRound)
    (ran : send state loader timestr headerPlan bodyPlan = some after) :
    Moved config state (.send loader timestr headerPlan bodyPlan) after := by
  unfold send at ran
  split at ran
  · rename_i worker place
    cases found : connected state worker.handle with
    | none => simp [found] at ran
    | some pair =>
        obtain ⟨value, conn⟩ := pair
        simp only [found] at ran
        obtain ⟨live, file⟩ := (connected_iff state worker.handle value conn).mp found
        cases ran
        exact .send place live file
  · cases ran

omit [Fintype R] in
theorem get_moved (config : Config) (state after : State R L) (loader : L)
    (ran : get state loader = some after) : Moved config state (.get loader) after := by
  unfold get at ran
  split at ran
  · rename_i place
    split at ran
    · rename_i alive
      cases queued : state.task_list with
      | nil => simp [queued] at ran
      | cons worker rest =>
          simp only [queued] at ran
          cases ran
          exact .get place alive queued
    · rename_i flushed
      cases ran
      exact .getNull place (Bool.eq_false_iff.mpr flushed)
  · cases ran

/-- Every step of the server is one of the outcomes. -/
theorem step_moved (config : Config) (state after : State R L) (action : Action R L)
    (ran : step config state action = some after) : Moved config state action after := by
  cases action with
  | lock receiver =>
      simp only [step, lock] at ran
      split at ran
      · rename_i place
        split at ran
        · cases ran
          exact .exit place
        · split at ran
          · rename_i free
            cases ran
            exact .lock place free
          · cases ran
      · cases ran
  | wait receiver waited => exact wait_moved config state after receiver waited ran
  | accept receiver new => exact accept_moved config state after receiver new ran
  | count receiver =>
      simp only [step, count] at ran
      split at ran
      · rename_i fd place
        cases ran
        exact .count place
      · cases ran
  | create receiver =>
      simp only [step, create] at ran
      split at ran
      · rename_i fd place
        cases ran
        exact .create place
      · cases ran
  | add receiver =>
      simp only [step, add] at ran
      split at ran
      · rename_i fd place
        cases ran
        exact .add place
      · cases ran
  | acquire receiver => exact acquire_moved config state after receiver ran
  | readHeader receiver plan => exact readHeader_moved config state after receiver plan ran
  | readBody receiver plan => exact readBody_moved config state after receiver plan ran
  | submit receiver => exact submit_moved config state after receiver ran
  | rearm receiver =>
      simp only [step, rearm] at ran
      split at ran
      · rename_i fd place
        cases ran
        exact .rearmSubmitted place
      · rename_i fd hdle place
        cases ran
        exact .rearmRejected place
      · cases ran
  | flag receiver =>
      simp only [step, flag] at ran
      split at ran
      · rename_i fd hdle place
        split at ran
        · cases ran
        · rename_i value live
          cases ran
          exact .flag place live
      · cases ran
  | drop receiver =>
      simp only [step, drop] at ran
      split at ran
      · rename_i fd hdle place
        obtain ⟨next, released, same⟩ := Option.map_eq_some_iff.mp ran
        obtain ⟨value, live, outcome⟩ := release_released state next hdle released
        subst same
        exact .drop place live outcome
      · cases ran
  | get loader => exact get_moved config state after loader ran
  | send loader timestr headerPlan bodyPlan =>
      exact send_moved config state after loader timestr headerPlan bodyPlan ran
  | release loader =>
      simp only [step, release] at ran
      split at ran
      · rename_i worker place
        obtain ⟨next, released, same⟩ := Option.map_eq_some_iff.mp ran
        obtain ⟨value, live, outcome⟩ := release_released state next worker.handle released
        subst same
        exact .release place live outcome
      · cases ran
  | arrive conn bytes =>
      simp only [step, Option.some.injEq] at ran
      subst ran
      exact .arrive
  | stop =>
      simp only [step, Option.some.injEq] at ran
      subst ran
      exact .stop
  | flush =>
      simp only [step, flush] at ran
      split at ran
      · rename_i exited
        cases ran
        exact .flush exited
      · cases ran

end AsrServer.Server
