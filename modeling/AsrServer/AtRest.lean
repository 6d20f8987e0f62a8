import AsrServer.ReplyOrder

/-!
The server left to itself. Between two requests nothing is left to do: when no
thread can take a step without a client, no request is on its way, no connection
has bytes that nobody will read, and one thread waits in `epoll_wait`; or the
server has been stopped and every thread has ended. So no thread ever waits for
a lock, an event or a worker that cannot come.
-/

namespace AsrServer.AtRest

open Bytes ReadPath Server Ownership References Lifetime ReplyOrder

variable {R L : Type}

/-- Between the lock and the unlock of `_epoll_mutex`. -/
def locks : Receiver → Bool
  | .locked | .accepting | .accepted _ | .counted _ | .inserted _ => true
  | _ => false

/-- The descriptor that epoll does not watch because the thread is at work on it. -/
def carries : Receiver → Option Fd
  | .accepted fd | .counted fd | .inserted fd | .dispatched fd | .receiving fd _
  | .parsed fd _ _ _ | .submitting fd _ _ _ | .submitted fd | .rejecting fd _
  | .failing fd _ => some fd
  | _ => none

/-- The threads stand where the mutex, the batch and the list have them. -/
structure Orderly (state : State R L) : Prop where
  mutex : ∀ receiver, locks (state.receivers receiver) = true ↔
    state.epoll_mutex = some receiver
  batch : state.ready_event_num ≤ state.ready_event.length
  finished : ∀ loader, state.loaders loader = .finished → state.alive = false

def Carried (receivers : R → Receiver) (fd : Fd) : Prop :=
  ∃ receiver, carries (receivers receiver) = some fd

/-- The descriptor's handle is flagged ERROR_SOCKET and not deleted yet. -/
def Broken (handles : HandleId → Option SocketHandle) (fd : Fd) : Prop :=
  ∃ hdle value, handles hdle = some value ∧ value.fd = fd ∧ value.failed = true

/-- Every connection is watched, in a thread's hands or broken. -/
def Attended (state : State R L) : Prop :=
  ∀ fd conn, state.files fd = some (.conn conn) →
    state.interest fd = true ∨ Carried state.receivers fd ∨ Broken state.handles fd

/-- The worker in a loader's hands that is still to be answered, if it is the one meant. -/
def inHand (conn : ConnId) (id : WorkerId) (place : Loader) : Nat :=
  if holds conn place = some id then 1 else 0

/-- Every request is in the list, with one loader, or answered, and there once. -/
def Conserved [Fintype L] (state : State R L) : Prop :=
  ∀ conn id, (state.received conn).count id =
    (lane state conn).waiting.count id + (∑ loader, inHand conn id (state.loaders loader)) +
      (state.answered conn).count id

section Step
variable [DecidableEq R] [DecidableEq L] {config : Config} {table : Fd → Stage R}
  {state : State R L}

/-! The mutex, the batch and the loaders. -/

omit [DecidableEq L] in
theorem mutex_at (orderly : Orderly state) (acting : R) (place : Receiver)
    (same : locks place = locks (state.receivers acting)) (receiver : R) :
    locks (Function.update state.receivers acting place receiver) = true ↔
      state.epoll_mutex = some receiver := by
  by_cases here : receiver = acting
  · rw [here, Function.update_self, same]
    exact orderly.mutex acting
  · rw [Function.update_of_ne here]
    exact orderly.mutex receiver

omit [DecidableEq L] in
theorem mutex_locked (orderly : Orderly state) (acting : R) (free : state.epoll_mutex = none)
    (receiver : R) :
    locks (Function.update state.receivers acting .locked receiver) = true ↔
      some acting = some receiver := by
  by_cases here : receiver = acting
  · simp [here, locks]
  · rw [Function.update_of_ne here, orderly.mutex receiver, free]
    simp [Ne.symm here]

omit [DecidableEq L] in
theorem mutex_unlocked (orderly : Orderly state) (acting : R) (place : Receiver)
    (held : locks (state.receivers acting) = true) (gone : locks place = false) (receiver : R) :
    locks (Function.update state.receivers acting place receiver) = true ↔
      (none : Option R) = some receiver := by
  by_cases here : receiver = acting
  · simp [here, gone]
  · rw [Function.update_of_ne here, orderly.mutex receiver, (orderly.mutex acting).mp held]
    simp [Ne.symm here]

omit [DecidableEq R] [DecidableEq L] in
theorem fetch_size (orderly : Orderly state) (waited : Waited) (events : List Fd) (num : Int)
    (fetches : fetch state waited = some (events, num)) : num - 1 ≤ events.length := by
  have batch := orderly.batch
  unfold fetch at fetches
  split at fetches
  · cases fetches
    omega
  · split at fetches
    · split at fetches
      · cases fetches
        omega
      · cases fetches
    · cases fetches
      omega
    · cases fetches
      omega

theorem moved_orderly (orderly : Orderly state) (action : Action R L) (after : State R L)
    (moved : Moved config state action after) : Orderly after := by
  have batch := orderly.batch
  -- Most steps move one receiver, which keeps the mutex or has none; the batch changes in `wait`
  -- alone.
  cases moved with
  | exit place =>
      exact ⟨mutex_at orderly _ _ (by rw [place]; rfl), batch, orderly.finished⟩
  | lock place free => exact ⟨mutex_locked orderly _ free, batch, orderly.finished⟩
  | waitFailed next ends place fetches negative =>
      refine ⟨mutex_unlocked orderly _ next (by rw [place]; rfl) ?_,
        fetch_size orderly _ _ _ fetches, orderly.finished⟩
      rcases ends with same | same <;> rw [same] <;> rfl
  | waitListen place fetches counted event =>
      exact ⟨mutex_at orderly _ _ (by rw [place]; rfl), fetch_size orderly _ _ _ fetches,
        orderly.finished⟩
  | waitPipe place fetches counted event | waitClient place fetches counted event client =>
      exact ⟨mutex_unlocked orderly _ _ (by rw [place]; rfl) rfl,
        fetch_size orderly _ _ _ fetches, orderly.finished⟩
  | acceptNone place =>
      exact ⟨mutex_unlocked orderly _ _ (by rw [place]; rfl) rfl, batch, orderly.finished⟩
  | create place =>
      rw [create_handle_eq]
      exact ⟨mutex_at orderly _ _ (by rw [place]; rfl), batch, orderly.finished⟩
  | add place | rearmSubmitted place | rearmRejected place =>
      rw [add_input_fd_eq]
      exact ⟨mutex_at orderly _ _ (by rw [place]; rfl), batch, orderly.finished⟩
  | acceptSome place | count place | acquire place | headerComplete place | headerError place
  | bodyRejected place | bodyComplete place | bodyShort place | submit place
  | submitFlushed place | flag place =>
      exact ⟨mutex_at orderly _ _ (by rw [place]; rfl), batch, orderly.finished⟩
  | drop place live released =>
      cases released <;>
        exact ⟨mutex_at orderly _ .idle (by rw [place]; rfl), batch, orderly.finished⟩
  | get place alive queued =>
      refine ⟨orderly.mutex, batch, ?_⟩
      intro loader done
      exact orderly.finished loader (Transition.before_update done nofun)
  | getNull place flushed => exact ⟨orderly.mutex, batch, fun _ _ => flushed⟩
  | send place live file =>
      refine ⟨orderly.mutex, batch, ?_⟩
      intro loader done
      exact orderly.finished loader (Transition.before_update done nofun)
  | release place live released =>
      cases released <;>
        refine ⟨orderly.mutex, batch, ?_⟩ <;>
        intro loader done <;>
        exact orderly.finished loader (Transition.before_update done nofun)
  | arrive | stop => exact ⟨orderly.mutex, batch, orderly.finished⟩
  | flush exited => exact ⟨orderly.mutex, batch, fun _ _ => rfl⟩

/-! The connections. -/

omit [DecidableEq L] in
theorem carried_at (receivers : R → Receiver) (acting : R) (place : Receiver) (fd : Fd)
    (same : carries place = carries (receivers acting)) (carried : Carried receivers fd) :
    Carried (Function.update receivers acting place) fd := by
  obtain ⟨receiver, holds⟩ := carried
  refine ⟨receiver, ?_⟩
  by_cases here : receiver = acting
  · rw [here, Function.update_self, same, ← here, holds]
  · rw [Function.update_of_ne here, holds]

omit [DecidableEq L] in
theorem carried_other (receivers : R → Receiver) (acting : R) (place : Receiver) (own fd : Fd)
    (had : carries (receivers acting) = some own) (apart : fd ≠ own)
    (carried : Carried receivers fd) : Carried (Function.update receivers acting place) fd := by
  obtain ⟨receiver, holds⟩ := carried
  refine ⟨receiver, ?_⟩
  have here : receiver ≠ acting := by
    intro same
    rw [same, had, Option.some.injEq] at holds
    exact apart holds.symm
  rw [Function.update_of_ne here, holds]

omit [DecidableEq R] [DecidableEq L] in
theorem broken_put (held : HandleId) (old next : SocketHandle) (fd : Fd)
    (live : state.handles held = some old) (same : next.fd = old.fd)
    (flag : old.failed = true → next.failed = true) (broken : Broken state.handles fd) :
    Broken (Function.update state.handles held (some next)) fd := by
  obtain ⟨hdle, value, found, here, failed⟩ := broken
  by_cases mine : hdle = held
  · subst mine
    rw [live] at found
    cases found
    exact ⟨hdle, next, Function.update_self .., same.trans here, flag failed⟩
  · exact ⟨hdle, value, by rwa [Function.update_of_ne mine], here, failed⟩

omit [DecidableEq L] in
theorem attended_thread (attended : Attended state) (after : State R L) (acting : R)
    (place : Receiver) (same : carries place = carries (state.receivers acting))
    (receivers : after.receivers = Function.update state.receivers acting place)
    (tables : (after.files, after.interest) = (state.files, state.interest))
    (broken : ∀ fd, Broken state.handles fd → Broken after.handles fd) : Attended after := by
  simp only [Prod.mk.injEq] at tables
  obtain ⟨files, interest⟩ := tables
  intro fd conn file
  rw [files] at file
  rw [interest, receivers]
  rcases attended fd conn file with watched | carried | failed
  · exact Or.inl watched
  · exact Or.inr (Or.inl (carried_at _ acting place fd same carried))
  · exact Or.inr (Or.inr (broken fd failed))

omit [DecidableEq R] [DecidableEq L] in
theorem attended_same (attended : Attended state) (after : State R L)
    (tables : (after.files, after.interest, after.receivers, after.handles) =
      (state.files, state.interest, state.receivers, state.handles)) : Attended after := by
  simp only [Prod.mk.injEq] at tables
  obtain ⟨files, interest, receivers, handles⟩ := tables
  intro fd conn file
  rw [interest, receivers, handles]
  exact attended fd conn (files ▸ file)

omit [DecidableEq L] in
theorem attended_add (attended : Attended state) (after : State R L) (acting : R)
    (place : Receiver) (own : Fd) (had : carries (state.receivers acting) = some own)
    (receivers : after.receivers = Function.update state.receivers acting place)
    (tables : (after.files, after.handles) = (state.files, state.handles))
    (interest : after.interest = (add_input_fd state own).interest) : Attended after := by
  simp only [Prod.mk.injEq] at tables
  obtain ⟨files, handles⟩ := tables
  intro fd conn file
  rw [files] at file
  rw [interest, receivers, handles]
  by_cases mine : fd = own
  · subst mine
    left
    rw [add_open state fd _ file]
    exact Function.update_self ..
  · rcases attended fd conn file with watched | carried | failed
    · left
      unfold add_input_fd
      split
      · simpa only [Function.update_of_ne mine] using watched
      · exact watched
    · exact Or.inr (Or.inl (carried_other _ acting place own fd had mine carried))
    · exact Or.inr (Or.inr failed)

omit [DecidableEq R] [DecidableEq L] in
theorem released_attended (attended : Attended state)
    (held : HandleId) (old : SocketHandle) (next after : State R L)
    (live : state.handles held = some old) (released : Released state held old next)
    (tables : (after.files, after.interest, after.handles) =
      (next.files, next.interest, next.handles))
    (carried : ∀ fd, Carried state.receivers fd → Carried after.receivers fd) :
    Attended after := by
  simp only [Prod.mk.injEq] at tables
  obtain ⟨files, interest, handles⟩ := tables
  intro fd conn file
  rw [files] at file
  rw [interest, handles]
  -- The descriptor that is closed has no connection any more; the others keep their excuse.
  cases released with
  | kept still =>
      rcases attended fd conn file with watched | carry | failed
      · exact Or.inl watched
      · exact Or.inr (Or.inl (carried fd carry))
      · exact Or.inr (Or.inr (broken_put held old _ fd live rfl (fun marked => marked) failed))
  | closed last failed =>
      by_cases mine : fd = old.fd
      · subst mine
        simp at file
      · simp only [Function.update_of_ne mine] at file
        rcases attended fd conn file with watched | carry | broken
        · left
          simpa only [del_input_fd, Function.update_of_ne mine] using watched
        · exact Or.inr (Or.inl (carried fd carry))
        · obtain ⟨hdle, value, found, here, marked⟩ := broken
          have apart : hdle ≠ held := by
            intro same
            subst same
            rw [live] at found
            cases found
            exact mine here.symm
          refine Or.inr (Or.inr ⟨hdle, value, ?_, here, marked⟩)
          simpa only [Function.update_of_ne apart] using found

theorem moved_attended (linked : Linked config table state) (attended : Attended state)
    (action : Action R L) (after : State R L) (moved : Moved config state action after) :
    Attended after := by
  -- A descriptor leaves one of the three states only by a step that brings it into another.
  cases moved with
  | exit place | lock place | waitListen place | waitPipe place | acceptNone place | count place
  | bodyRejected place | submit place | submitFlushed place =>
      exact attended_thread attended _ _ _ (by rw [place]; rfl) rfl rfl (fun _ broken => broken)
  | waitFailed next ends place =>
      refine attended_thread attended _ _ next ?_ rfl rfl (fun _ broken => broken)
      rw [place]
      rcases ends with same | same <;> rw [same] <;> rfl
  | get | getNull | send | arrive | stop | flush => exact attended_same attended _ rfl
  | @waitClient receiver waited events num fd place =>
      -- `del_input_fd`: no longer watched, but in this thread's hands.
      intro other conn file
      by_cases mine : other = fd
      · exact Or.inr (Or.inl ⟨receiver, by simp [State.at, State.unlock, carries, mine]⟩)
      · rcases attended other conn file with watched | ⟨holder, holds⟩ | failed
        · left
          simpa [State.at, State.unlock, del_input_fd, State.fetched, Function.update_of_ne mine]
            using watched
        · refine Or.inr (Or.inl ⟨holder, ?_⟩)
          have here : holder ≠ receiver := by
            intro same
            rw [same, place] at holds
            cases holds
          simpa [State.at, State.unlock, del_input_fd, State.fetched,
            Function.update_of_ne here] using holds
        · exact Or.inr (Or.inr failed)
  | @acceptSome receiver fd place free =>
      intro other conn file
      by_cases mine : other = fd
      · exact Or.inr (Or.inl ⟨receiver, by simp [State.at, carries, mine]⟩)
      · simp only [Function.update_of_ne mine] at file
        rcases attended other conn file with watched | ⟨holder, holds⟩ | failed
        · exact Or.inl watched
        · refine Or.inr (Or.inl ⟨holder, ?_⟩)
          have here : holder ≠ receiver := by
            intro same
            rw [same, place] at holds
            cases holds
          simpa [State.at, Function.update_of_ne here] using holds
        · exact Or.inr (Or.inr failed)
  | @create receiver fd place =>
      rw [linked.created receiver fd place]
      refine attended_thread attended _ _ _ (by rw [place]; rfl) rfl rfl ?_
      rintro other ⟨hdle, value, found, here, failed⟩
      refine ⟨hdle, value, ?_, here, failed⟩
      have old : hdle ≠ state.nextHandle := by
        intro same
        rw [linked.freshHandle hdle (same ▸ le_rfl)] at found
        cases found
      simpa only [State.at, State.put, Function.update_of_ne old] using found
  | @add receiver fd place | @rearmSubmitted receiver fd place
  | @rearmRejected receiver fd hdle place =>
      rw [add_input_fd_eq]
      exact attended_add attended _ receiver _ fd (by rw [place]; rfl) rfl rfl rfl
  | acquire place found live | headerComplete place live | headerError place live
  | bodyComplete place accepted live | bodyShort place accepted live =>
      exact attended_thread attended _ _ _ (by rw [place]; rfl) rfl rfl
        (fun fd => broken_put _ _ _ fd live rfl fun marked => marked)
  | @flag receiver fd hdle value place live =>
      obtain ⟨conn, stage⟩ := place ▸ linked.owners receiver
      obtain ⟨here, _, _⟩ := held_value linked receiver fd hdle conn value stage live
      -- From here on the flag accounts for the descriptor.
      intro other id file
      by_cases mine : other = fd
      · subst mine
        exact Or.inr (Or.inr ⟨hdle, _, Function.update_self .., here, failed_flag value⟩)
      · rcases attended other id file with watched | carried | broken
        · exact Or.inl watched
        · exact Or.inr (Or.inl (carried_other state.receivers receiver _ fd other
            (by rw [place]; rfl) mine carried))
        · exact Or.inr (Or.inr (broken_put hdle value _ other live rfl
            (fun _ => failed_flag value) broken))
  | @drop receiver fd hdle value next place live released =>
      refine released_attended attended hdle value next _ live released rfl ?_
      intro other carried
      have same : next.receivers = state.receivers := by cases released <;> rfl
      simp only [State.at, same]
      exact carried_at _ receiver .idle other (by rw [place]; rfl) carried
  | @release loader worker value next place live released =>
      refine released_attended attended _ value next _ live released rfl ?_
      have same : next.receivers = state.receivers := by cases released <;> rfl
      simp only [State.loading, same]
      exact fun _ carried => carried

/-! The requests. -/

omit [DecidableEq R] in
theorem conserved_lane [Fintype L] (conserved : Conserved state) (after : State R L) (loader : L)
    (place : Loader) (loaders : after.loaders = Function.update state.loaders loader place)
    (counts : ∀ conn id, (after.received conn).count id + inHand conn id (state.loaders loader) +
        (lane state conn).waiting.count id + (state.answered conn).count id =
      (state.received conn).count id + inHand conn id place +
        (lane after conn).waiting.count id + (after.answered conn).count id) :
    Conserved after := by
  intro conn id
  have before := conserved conn id
  have moves := Transition.sum_update (inHand conn id) state.loaders loader place
  have shift := counts conn id
  rw [loaders]
  omega

omit [DecidableEq R] [DecidableEq L] in
theorem conserved_same [Fintype L] (conserved : Conserved state) (after : State R L)
    (same : (after.received, after.task_list, after.loaders, after.answered) =
      (state.received, state.task_list, state.loaders, state.answered)) : Conserved after := by
  simp only [Prod.mk.injEq] at same
  obtain ⟨received, tasks, loaders, answered⟩ := same
  intro conn id
  have before := conserved conn id
  simp only [lane] at before ⊢
  rw [received, tasks, loaders, answered]
  exact before

theorem moved_conserved [Fintype L] (origins : Origins state) (conserved : Conserved state)
    (action : Action R L) (after : State R L) (moved : Moved config state action after) :
    Conserved after := by
  -- Only `submit`, `get`, `send` and `release` move a request.
  cases moved with
  | create =>
      rw [create_handle_eq]
      exact conserved_same conserved _ rfl
  | add | rearmSubmitted | rearmRejected =>
      rw [add_input_fd_eq]
      exact conserved_same conserved _ rfl
  | drop place live released => cases released <;> exact conserved_same conserved _ rfl
  | @submit receiver fd hdle request own place alive =>
      intro conn id
      have before := conserved conn id
      by_cases mine : conn = own
      · subst mine
        simp only [lane, State.at, Function.update_self, List.count_append, List.filter_append,
          List.map_append] at before ⊢
        simp only [List.filter_cons, decide_true, ↓reduceIte, List.filter_nil, List.map_cons,
          List.map_nil]
        omega
      · simpa [lane, State.at, Function.update_of_ne mine, Ne.symm mine] using before
  | @get loader worker rest place alive queue =>
      refine conserved_lane conserved _ loader (.working worker) rfl ?_
      intro conn id
      rw [place]
      by_cases mine : worker.conn = conn
      · simp only [lane, queue, inHand, holds, serving, mine, List.filter_cons, decide_true,
          ↓reduceIte, List.map_cons, List.count_cons, Option.filter, Option.map_none,
          reduceCtorEq, Option.map_some, Option.some.injEq, beq_iff_eq, State.loading]
        omega
      · simp [lane, queue, inHand, holds, serving, mine, State.loading]
  | @getNull loader place flushed =>
      refine conserved_lane conserved _ loader .finished rfl ?_
      intro conn id
      rw [place]
      rfl
  | @send loader timestr headerPlan bodyPlan worker value own place live file =>
      have origin : worker.conn = own := by
        have here := origins worker (Or.inr ⟨loader, Or.inl place⟩) value live
        rw [file] at here
        cases here
        rfl
      subst origin
      refine conserved_lane conserved _ loader (.replied worker) rfl ?_
      intro conn id
      rw [place]
      by_cases mine : conn = worker.conn
      · subst mine
        simp only [lane, inHand, holds, serving, Option.filter, decide_true, ↓reduceIte,
          Option.map_some, Option.some.injEq, Option.map_none, reduceCtorEq, State.loading,
          Function.update_self, List.count_append, List.count_cons, List.count_nil, beq_iff_eq]
        omega
      · simp [lane, inHand, holds, serving, State.loading, mine, Ne.symm mine]
  | @release loader worker value next place live released =>
      cases released <;>
      · refine conserved_lane conserved _ loader .waiting rfl ?_
        intro conn id
        rw [place]
        rfl
  | _ => exact conserved_same conserved _ rfl

end Step

section Runs
variable [DecidableEq R] [Fintype R] [DecidableEq L] [Fintype L] {config : Config}

omit [Fintype L] in
theorem reachable_orderly (state : State R L) (reached : Running config state) :
    Orderly state := by
  refine reached.invariant Orderly ?_ ?_
  · intro state start
    subst start
    exact ⟨fun _ => by simp [State.initial, locks], le_rfl, nofun⟩
  · intro before action after _ _ orderly ran
    exact moved_orderly orderly action after (step_moved config before after action ran)

omit [Fintype L] in
theorem reachable_attended (state : State R L) (reached : Running config state) :
    Attended state := by
  refine reached.invariant Attended ?_ ?_
  · intro state start fd conn file
    subst start
    simp only [State.initial] at file
    split at file
    · cases file
    · split at file <;> cases file
  · intro before action after earlier _ attended ran
    obtain ⟨table, linked⟩ := reachable_linked before earlier
    exact moved_attended linked attended action after (step_moved config before after action ran)

/-- In every run each request of a connection is in the list, in one loader's hands or
answered. -/
theorem reachable_conserved (state : State R L) (reached : Running config state) :
    Conserved state := by
  refine reached.invariant Conserved ?_ ?_
  · intro state start conn id
    subst start
    simp [lane, State.initial, inHand, holds, serving]
  · intro before action after earlier _ conserved ran
    exact moved_conserved (reachable_origins before earlier) conserved action after
      (step_moved config before after action ran)

/-- What `epoll_wait` has to report without a new client: bytes of a connection, or the
byte that `stop` writes into the pipe. -/
def Readable (state : State R L) (fd : Fd) : Prop :=
  (∃ conn, state.files fd = some (.conn conn) ∧ state.unread conn ≠ []) ∨
    (state.files fd = some .pipe ∧ state.stop_task = true)

/-- The actions that wait for nobody outside the server. -/
def Own (state : State R L) : Action R L → Prop
  | .wait _ waited => 0 < state.ready_event_num ∨
      ∃ batch, waited = .events batch ∧ ∀ fd ∈ batch, Readable state fd
  | .accept _ new => new = none
  | .flush => state.alive = true
  | .arrive _ _ | .stop => False
  | _ => True

/-- The server can do nothing by itself. -/
def Rests (config : Config) (state : State R L) : Prop :=
  ∀ action, Own state action → step config state action = none

/-- `substr` leaves `recv_request` with an exception on what is already buffered. -/
def Throws (config : Config) (state : State R L) : Receiver → Prop
  | .receiving _ hdle => ∃ value conn, connected state hdle = some (value, conn) ∧
      (read_http_header_timeout ⟨value.read_buf, state.unread conn, []⟩).1 = .out_of_range
  | .parsed _ hdle http _ => ∃ length value conn, verdict config.info http = some length ∧
      connected state hdle = some (value, conn) ∧
      (readn_timeout ⟨value.read_buf, state.unread conn, []⟩ length).1 = .out_of_range
  | _ => False

/-- Nothing is left to do but what clients ask for next. -/
structure Waiting (state : State R L) : Prop where
  running : state.stop_task = false ∧ state.alive = true
  polling : state.ready_event_num ≤ 0 ∧ ∃ receiver, state.receivers receiver = .locked ∧
    ∀ other, other ≠ receiver →
      state.receivers other = .idle ∨ state.receivers other = .exited
  loaders : state.task_list = [] ∧ ∀ loader, state.loaders loader = .waiting
  answered : ∀ conn, (state.answered conn).Perm (state.received conn)
  drained : ∀ fd conn, state.files fd = some (.conn conn) →
    (state.interest fd = true ∧ state.unread conn = []) ∨
      ∃ hdle value, state.handles hdle = some value ∧ value.fd = fd ∧ value.failed = true ∧
        state.invalid hdle % 2 ^ 32 ≠ 0

structure Stopped (state : State R L) : Prop where
  flushed : state.alive = false
  receivers : ∀ receiver, state.receivers receiver = .exited
  loaders : ∀ loader, state.loaders loader = .finished

/-! What stands still where nothing can move. -/

theorem used_connected (state : State R L) (reached : RunningCovered config state)
    (hdle : HandleId) (used : 0 < users state hdle) :
    ∃ value conn, connected state hdle = some (value, conn) := by
  obtain ⟨table, linked⟩ := reachable_linked state reached.reachable
  obtain ⟨value, live⟩ := live_user state reached hdle used
  obtain ⟨conn, _, file⟩ := linked.connection hdle value live
  exact ⟨value, conn, (connected_iff state hdle value conn).mpr ⟨live, file⟩⟩

theorem rest_receivers (state : State R L) (reached : RunningCovered config state)
    (rests : Rests config state) (receiver : R)
    (fine : ¬ Throws config state (state.receivers receiver)) :
    state.receivers receiver = .idle ∨ state.receivers receiver = .locked ∨
      state.receivers receiver = .exited := by
  obtain ⟨table, linked⟩ := reachable_linked state reached.reachable
  have live (hdle : HandleId) (place : uses hdle (state.receivers receiver) = 1) :
      ∃ value conn, connected state hdle = some (value, conn) := by
    have used := uses_le state receiver hdle
    exact used_connected state reached hdle (by omega)
  -- At every other place the thread has a step of its own, which `rests` rules out.
  cases place : state.receivers receiver with
  | idle => exact Or.inl rfl
  | locked => exact Or.inr (Or.inl rfl)
  | exited => exact Or.inr (Or.inr rfl)
  | accepting => simpa [step, accept, place] using rests (.accept receiver none) rfl
  | accepted fd => simpa [step, count, place] using rests (.count receiver) trivial
  | counted fd => simpa [step, create, place] using rests (.create receiver) trivial
  | inserted fd => simpa [step, add, place] using rests (.add receiver) trivial
  | dispatched fd =>
      obtain ⟨hdle, conn, stage⟩ := place ▸ linked.owners receiver
      obtain ⟨value, here, _, _⟩ := linked.entry fd hdle (by rw [stage]; rfl)
      have found : state.m_fd_set.lookup fd = some hdle := by rw [linked.mapped, stage]; rfl
      simpa [step, acquire, place, found, here] using rests (.acquire receiver) trivial
  | receiving fd hdle =>
      obtain ⟨value, conn, linked⟩ := live hdle (by simp [place, uses])
      -- The read loop ends under every plan, so only an exception can keep the thread here.
      have stuck := rests (.readHeader receiver []) trivial
      simp only [step, readHeader, place, linked] at stuck
      split at stuck
      · cases stuck
      · cases stuck
      · rename_i left ran
        rw [place] at fine
        exact (fine ⟨value, conn, linked, by rw [ran]⟩).elim
  | parsed fd hdle http origin =>
      have stuck := rests (.readBody receiver []) trivial
      simp only [step, readBody, place] at stuck
      split at stuck
      · cases stuck
      · rename_i length accepted
        obtain ⟨value, conn, linked⟩ := live hdle (by simp [place, uses])
        simp only [linked] at stuck
        split at stuck
        · split at stuck <;> cases stuck
        · rename_i left ran
          rw [place] at fine
          exact (fine ⟨length, value, conn, accepted, linked, by rw [ran]⟩).elim
  | submitting fd hdle request conn =>
      have stuck := rests (.submit receiver) trivial
      simp only [step, submit, place] at stuck
      split at stuck <;> cases stuck
  | submitted fd => simpa [step, rearm, place] using rests (.rearm receiver) trivial
  | rejecting fd hdle => simpa [step, rearm, place] using rests (.rearm receiver) trivial
  | failing fd hdle =>
      obtain ⟨value, conn, linked⟩ := live hdle (by simp [place, uses])
      have held := ((connected_iff ..).mp linked).1
      simpa [step, Server.flag, place, held] using rests (.flag receiver) trivial
  | flagged fd hdle =>
      obtain ⟨value, conn, linked⟩ := live hdle (by simp [place, uses])
      have held := ((connected_iff ..).mp linked).1
      have stuck := rests (.drop receiver) trivial
      simp only [step, drop, place, release_handle, held, Option.map_eq_none_iff] at stuck
      split at stuck <;> cases stuck

theorem rest_loaders (state : State R L) (reached : RunningCovered config state)
    (rests : Rests config state) (loader : L) :
    (state.alive = true ∧ state.task_list = [] ∧ state.loaders loader = .waiting) ∨
      (state.alive = false ∧ state.loaders loader = .finished) := by
  have live (worker : Worker) (serving : Serving state worker) :=
    used_connected state reached worker.handle (serving_users worker serving)
  cases place : state.loaders loader with
  | waiting =>
      have stuck := rests (.get loader) trivial
      simp only [step, Server.get, place, ↓reduceIte] at stuck
      cases alive : state.alive with
      | false => simp [alive] at stuck
      | true =>
          cases tasks : state.task_list with
          | nil => exact Or.inl ⟨rfl, rfl, rfl⟩
          | cons worker rest => simp [alive, tasks] at stuck
  | working worker =>
      obtain ⟨value, conn, linked⟩ := live worker (Or.inr ⟨loader, Or.inl place⟩)
      have stuck := rests (.send loader [] [] []) trivial
      simp [step, send, place, linked] at stuck
  | replied worker =>
      obtain ⟨value, conn, linked⟩ := live worker (Or.inr ⟨loader, Or.inr place⟩)
      have held := ((connected_iff ..).mp linked).1
      have stuck := rests (.release loader) trivial
      simp only [step, release, place, release_handle, held, Option.map_eq_none_iff] at stuck
      split at stuck <;> cases stuck
  | finished =>
      exact Or.inr ⟨(reachable_orderly state reached.reachable).finished loader place, rfl⟩

omit [Fintype L] in
theorem rest_polling (state : State R L) (reached : Running config state)
    (rests : Rests config state) (receiver : R) (place : state.receivers receiver = .locked) :
    state.stop_task = false ∧ state.ready_event_num ≤ 0 ∧
      ∀ fd conn, state.files fd = some (.conn conn) → state.interest fd = true →
        state.unread conn = [] := by
  obtain ⟨table, linked⟩ := reachable_linked state reached
  have batch := (reachable_orderly state reached).batch
  -- What is left of a batch could be taken, and what is readable reported.
  have taken : ¬ 0 < state.ready_event_num := by
    intro more
    have inside : (state.ready_event_num - 1).toNat < state.ready_event.length := by omega
    have stuck := rests (.wait receiver .failed) (Or.inl more)
    simp only [step, wait, place, fetch, more, Int.not_lt.mpr (Int.le_of_lt more), ↓reduceIte,
      List.getElem?_eq_getElem inside, reduceCtorEq] at stuck
  have unreported (fd : Fd) (watched : state.interest fd = true) : ¬ Readable state fd := by
    intro readable
    have stuck := rests (.wait receiver (.events [fd]))
      (Or.inr ⟨[fd], rfl, by simpa using readable⟩)
    simp [step, wait, place, fetch, taken, Reported, watched, MAX_EPOLL_EVENT_NUM] at stuck
  refine ⟨?_, Int.not_lt.mp taken, ?_⟩
  · have stage := (linked.waking config.pipe_read).mpr rfl
    have pipe : state.files config.pipe_read = some .pipe := by rw [linked.file, stage]; rfl
    have watched : state.interest config.pipe_read = true := by
      rw [linked.interest, stage]
      rfl
    cases stopping : state.stop_task with
    | false => rfl
    | true => exact (unreported _ watched (Or.inr ⟨pipe, stopping⟩)).elim
  · intro fd conn file watched
    by_contra left
    exact unreported fd watched (Or.inl ⟨conn, file, left⟩)

omit [DecidableEq R] [DecidableEq L] in
/-- At rest nothing uses a handle, so one that is flagged is still there only because
references to it were lost. -/
theorem rest_users (state : State R L)
    (receivers : ∀ receiver, state.receivers receiver = .idle ∨
      state.receivers receiver = .locked ∨ state.receivers receiver = .exited)
    (tasks : state.task_list = []) (loaders : ∀ loader, state.loaders loader = .waiting)
    (hdle : HandleId) : users state hdle = 0 := by
  have idle (receiver : R) : uses hdle (state.receivers receiver) = 0 := by
    rcases receivers receiver with place | place | place <;> rw [place] <;> rfl
  simp [users, idle, loaders, tasks, serves, queued]

theorem quiet_waiting (state : State R L) (reached : Running config state)
    (running : state.stop_task = false) (alive : state.alive = true)
    (batch : state.ready_event_num ≤ 0)
    (quiet : ∀ fd conn, state.files fd = some (.conn conn) → state.interest fd = true →
      state.unread conn = [])
    (receivers : ∀ receiver, state.receivers receiver = .idle ∨
      state.receivers receiver = .locked ∨ state.receivers receiver = .exited)
    (poller : R) (polls : state.receivers poller = .locked)
    (tasks : state.task_list = []) (loaders : ∀ loader, state.loaders loader = .waiting) :
    Waiting state := by
  have orderly := reachable_orderly state reached
  refine ⟨⟨running, alive⟩, ⟨batch, poller, polls, ?_⟩, ⟨tasks, loaders⟩, ?_, ?_⟩
  · intro other apart
    rcases receivers other with idle | locked | exited
    · exact Or.inl idle
    -- Only one thread has the mutex.
    · have first := (orderly.mutex poller).mp (by rw [polls]; rfl)
      have second := (orderly.mutex other).mp (by rw [locked]; rfl)
      rw [first, Option.some.injEq] at second
      exact absurd second.symm apart
    · exact Or.inr exited
  · intro conn
    rw [List.perm_iff_count]
    intro id
    have conserved := reachable_conserved state reached conn id
    have zero (loader : L) : inHand conn id (state.loaders loader) = 0 := by
      rw [loaders loader]
      rfl
    simp only [zero, Finset.sum_const_zero, lane, tasks, List.filter_nil, List.map_nil,
      List.count_nil] at conserved
    omega
  · intro fd conn file
    rcases reachable_attended state reached fd conn file with watched | ⟨holder, holds⟩ | broken
    · exact Or.inl ⟨watched, quiet fd conn file watched⟩
    · rcases receivers holder with place | place | place <;> rw [place] at holds <;> cases holds
    · obtain ⟨hdle, value, live, here, failed⟩ := broken
      refine Or.inr ⟨hdle, value, live, here, failed, ?_⟩
      intro unused
      have object : (account state hdle).object = some (value.ref, true) := by
        rw [account_live state hdle value live, failed]
      have used := ((reachable_tracked state reached).exact hdle).reclaimed unused value.ref object
      change 0 < users state hdle at used
      rw [rest_users state receivers tasks loaders hdle] at used
      exact absurd used (Nat.lt_irrefl 0)

omit [Fintype L] in
theorem rests_of_receivers (state : State R L)
    (receivers : ∀ receiver, state.receivers receiver = .idle ∨
      state.receivers receiver = .locked ∨ state.receivers receiver = .exited)
    (loaders : ∀ loader, state.loaders loader = .waiting ∨ state.loaders loader = .finished)
    (lock : ∀ receiver, lock state receiver = none)
    (wait : ∀ receiver waited, Own state (.wait receiver waited) →
      wait config state receiver waited = none)
    (get : ∀ loader, Server.get state loader = none)
    (flush : state.alive = true → flush state = none) : Rests config state := by
  intro action own
  cases action with
  | lock receiver => exact lock receiver
  | wait receiver waited => exact wait receiver waited own
  | get loader => exact get loader
  | flush => exact flush own
  | arrive | stop => exact own.elim
  | accept receiver | count receiver | create receiver | add receiver | acquire receiver
  | readHeader receiver | readBody receiver | submit receiver | rearm receiver
  | flag receiver | drop receiver =>
      rcases receivers receiver with place | place | place <;>
        simp [step, accept, count, create, add, acquire, readHeader, readBody, submit, rearm,
          Server.flag, drop, place]
  | send loader | release loader =>
      rcases loaders loader with place | place <;> simp [step, send, release, place]

omit [Fintype L] in
theorem waiting_rests (state : State R L) (reached : Running config state)
    (waiting : Waiting state) : Rests config state := by
  obtain ⟨table, linked⟩ := reachable_linked state reached
  obtain ⟨batch, poller, polls, others⟩ := waiting.polling
  obtain ⟨running, alive⟩ := waiting.running
  obtain ⟨tasks, loaders⟩ := waiting.loaders
  have held := ((reachable_orderly state reached).mutex poller).mp (by rw [polls]; rfl)
  refine rests_of_receivers state ?_ (fun loader => Or.inl (loaders loader)) ?_ ?_ ?_ ?_
  · intro receiver
    by_cases same : receiver = poller
    · exact Or.inr (Or.inl (same ▸ polls))
    · rcases others receiver same with place | place
      · exact Or.inl place
      · exact Or.inr (Or.inr place)
  · intro receiver
    simp [lock, running, held]
  · intro receiver waited own
    rcases own with left | ⟨events, same, readable⟩
    · exact absurd batch (Int.not_le.mpr left)
    subst same
    have unreported : ¬ Reported state events := by
      rintro ⟨nonempty, _, _, watched⟩
      obtain ⟨fd, member⟩ := List.exists_mem_of_ne_nil events nonempty
      have armed := watched fd member
      rcases readable fd member with ⟨conn, file, bytes⟩ | ⟨_, stopping⟩
      · rcases waiting.drained fd conn file with ⟨_, dry⟩ | ⟨hdle, value, live, here, failed, _⟩
        · exact bytes dry
        -- A flagged handle's descriptor is not watched.
        · obtain ⟨id, stage⟩ := linked.failed hdle value live failed
          rw [linked.interest, ← here, stage] at armed
          cases armed
      · rw [running] at stopping
        cases stopping
    simp [wait, fetch, Int.not_lt.mpr batch, unreported]
  · intro loader
    simp [Server.get, alive, tasks]
  · intro _
    refine if_neg ?_
    intro exited
    have gone := exited poller
    rw [polls] at gone
    cases gone

omit [Fintype L] in
theorem stopped_rests (state : State R L) (stopped : Stopped state) : Rests config state := by
  refine rests_of_receivers state (fun receiver => Or.inr (Or.inr (stopped.receivers receiver)))
    (fun loader => Or.inr (stopped.loaders loader)) ?_ ?_ ?_ ?_
  · intro receiver
    simp [lock, stopped.receivers receiver]
  · intro receiver waited _
    simp [wait, stopped.receivers receiver]
  · intro loader
    simp [Server.get, stopped.loaders loader]
  · intro alive
    rw [stopped.flushed] at alive
    cases alive

theorem rest_waits_or_ends [Nonempty L] (state : State R L)
    (reached : RunningCovered config state) (rests : Rests config state)
    (fine : ∀ receiver, ¬ Throws config state (state.receivers receiver)) :
    Waiting state ∨ Stopped state := by
  have running := reached.reachable
  have receivers (receiver : R) :=
    rest_receivers state reached rests receiver (fine receiver)
  have loaders := rest_loaders state reached rests
  cases alive : state.alive with
  | false =>
      -- The list is flushed when all receivers have ended.
      refine Or.inr ⟨alive, (reachable_tracked state running).drained alive, ?_⟩
      intro loader
      rcases loaders loader with ⟨still, _⟩ | ⟨_, finished⟩
      · rw [alive] at still
        cases still
      · exact finished
  | true =>
      left
      have waiting (loader : L) : state.task_list = [] ∧ state.loaders loader = .waiting := by
        rcases loaders loader with ⟨_, tasks, place⟩ | ⟨dead, _⟩
        · exact ⟨tasks, place⟩
        · rw [alive] at dead
          cases dead
      by_cases polls : ∃ poller, state.receivers poller = .locked
      · obtain ⟨poller, polls⟩ := polls
        obtain ⟨open', batch, quiet⟩ := rest_polling state running rests poller polls
        exact quiet_waiting state running open' alive batch quiet receivers poller polls
          (waiting (Classical.arbitrary L)).1 fun loader => (waiting loader).2
      · exfalso
        -- Without a poller the mutex is free, so an idle thread would take it.
        have free : state.epoll_mutex = none := by
          cases held : state.epoll_mutex with
          | none => rfl
          | some holder =>
              have mutex := ((reachable_orderly state running).mutex holder).mpr held
              rcases receivers holder with place | place | place
              · rw [place] at mutex
                cases mutex
              · exact absurd ⟨holder, place⟩ polls
              · rw [place] at mutex
                cases mutex
        have exited (receiver : R) : state.receivers receiver = .exited := by
          rcases receivers receiver with place | place | place
          · have stuck := rests (.lock receiver) trivial
            simp only [step, lock, place, free, ↓reduceIte] at stuck
            split at stuck <;> cases stuck
          · exact absurd ⟨receiver, place⟩ polls
          · exact place
        have stuck := rests .flush alive
        simp [step, flush, exited] at stuck

/-- No deadlock: nothing can move without a client exactly when the server has answered every
request and waits in `epoll_wait` for the next, or has ended. -/
theorem rests_iff [Nonempty L] (state : State R L) (reached : RunningCovered config state)
    (fine : ∀ receiver, ¬ Throws config state (state.receivers receiver)) :
    Rests config state ↔ Waiting state ∨ Stopped state := by
  constructor
  · intro rests
    exact rest_waits_or_ends state reached rests fine
  · rintro (waiting | stopped)
    · exact waiting_rests state reached.reachable waiting
    · exact stopped_rests state stopped

/-- A request that was received is in one place: it waits in the list, one loader has it, or it
has been answered on its own connection, once. -/
theorem request_in_one_place (state : State R L) (reached : Running config state)
    (conn : ConnId) (id : WorkerId) (received : id ∈ state.received conn) :
    (lane state conn).waiting.count id + (∑ loader, inHand conn id (state.loaders loader)) +
      (state.answered conn).count id = 1 := by
  have once : (state.received conn).Nodup := (reachable_fifo state reached conn).once
  have conserved := reachable_conserved state reached conn id
  rw [List.count_eq_one_of_mem once received] at conserved
  exact conserved.symm

end Runs

/-- After a request and its response the only receiver waits in `epoll_wait`. -/
theorem rests_iff_answered : ∃ state : State (Fin 1) (Fin 1),
    (state.answered 0 = [0] ∧ state.receivers 0 = .locked) ∧
      (Rests sample state ↔ Waiting state ∨ Stopped state) := by
  obtain ⟨state, reached, shown⟩ := covered_run
    (connect 0 5 ++ request 0 5 0 ++ [.get 0, .send 0 [] [.wrote 1024] [.wrote 1024],
      .release 0, .lock 0])
    (fun state : State (Fin 1) (Fin 1) => decide (state.answered 0 = [0] ∧
      state.receivers 0 = .locked))
    (by decide +kernel : (Transition.execWhile (step sample) _ _ _).any _ = true)
  obtain ⟨answered, polls⟩ := of_decide_eq_true shown
  refine ⟨state, ⟨answered, polls⟩, rests_iff state reached ?_⟩
  intro receiver
  rw [Subsingleton.elim receiver 0, polls]
  exact id

/-- Two requests of one connection, the second still in the list. -/
theorem request_in_one_place_queued : ∃ state : State (Fin 1) (Fin 1),
    (lane state 0).waiting = [1] ∧
      (lane state 0).waiting.count 1 + (∑ loader, inHand 0 1 (state.loaders loader)) +
        (state.answered 0).count 1 = 1 := by
  obtain ⟨state, reached, shown⟩ := Transition.exec_reaches
    (.start rfl : Running sample (State.initial sample (Fin 1) (Fin 1)))
    (connect 0 5 ++ request 0 5 0 ++ request 0 5 0 ++ [.get 0])
    (fun state => decide ((lane state 0).waiting = [1] ∧ state.received 0 = [0, 1]))
    (by decide +kernel)
  obtain ⟨waits, received⟩ := of_decide_eq_true shown
  exact ⟨state, waits, request_in_one_place state reached 0 1 (by rw [received]; decide)⟩

end AsrServer.AtRest
