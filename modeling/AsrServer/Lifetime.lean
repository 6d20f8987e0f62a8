import AsrServer.References

/-!
How long a handle lives. A receiver inside `recv_request` has its descriptor's
stage to itself, so its handle is live until it has flagged it; from there on,
and for the workers, the reference count is all that keeps the handle. It does
as long as the 32-bit count of a flagged handle does not read one while the
handle has more than one user, which takes lost references.
-/

namespace AsrServer.Lifetime

open Bytes ReadPath Server Ownership References

variable {R L : Type}

/-- A worker that is queued or in a loader's hands. -/
def Serving (state : State R L) (worker : Worker) : Prop :=
  worker ∈ state.task_list ∨
    ∃ loader, state.loaders loader = .working worker ∨ state.loaders loader = .replied worker

def reads : Receiver → Option ConnId
  | .parsed _ _ _ conn | .submitting _ _ _ conn => some conn
  | _ => none

/-- A worker's handle, while it lives, is open on the connection its request was
read from. -/
def Origins (state : State R L) : Prop :=
  ∀ worker, Serving state worker → ∀ value, state.handles worker.handle = some value →
    state.files value.fd = some (.conn worker.conn)

/-- Deleted handles are gone and their addresses, here their numbers, not used again. -/
structure Buried (state : State R L) : Prop where
  once : state.deleted.Nodup
  gone : ∀ hdle ∈ state.deleted, state.handles hdle = none ∧ hdle < state.nextHandle

/-- Nothing that is used has been deleted, everything used is on the connection it
came from, and nothing is deleted twice. -/
structure Sound (state : State R L) : Prop where
  receiving : ∀ receiver hdle, uses hdle (state.receivers receiver) = 1 →
    ∃ value conn, state.handles hdle = some value ∧
      state.files value.fd = some (.conn conn) ∧
      ∀ origin, reads (state.receivers receiver) = some origin → origin = conn
  serving : ∀ worker, Serving state worker →
    ∃ value, state.handles worker.handle = some value ∧
      state.files value.fd = some (.conn worker.conn)
  once : state.deleted.Nodup

section Step
variable [DecidableEq R] [DecidableEq L] {config : Config} {table : Fd → Stage R}
  {state : State R L}

structure Survives (state after : State R L) (hdle : HandleId) (value : SocketHandle) :
    Prop where
  held : ∃ old, state.handles hdle = some old ∧ old.fd = value.fd ∧
    (old.failed = true → value.failed = true)
  file : after.files value.fd = state.files value.fd

omit [DecidableEq R] [DecidableEq L] in
theorem put_survives (held hdle : HandleId) (old next value : SocketHandle)
    (found : state.handles held = some old)
    (there : (state.put held next).handles hdle = some value)
    (same : next.fd = old.fd) (flag : old.failed = true → next.failed = true)
    (after : State R L) (files : after.files = state.files) :
    Survives state after hdle value := by
  refine ⟨?_, by rw [files]⟩
  by_cases here : hdle = held
  · subst here
    simp only [State.put, Function.update_self, Option.some.injEq] at there
    subst there
    exact ⟨old, found, same.symm, flag⟩
  · simp only [State.put, Function.update_of_ne here] at there
    exact ⟨value, there, rfl, fun failed => failed⟩

omit [DecidableEq R] [DecidableEq L] in
theorem released_survives (linked : Linked config table state) (held hdle : HandleId)
    (old value : SocketHandle) (next : State R L) (found : state.handles held = some old)
    (released : Released state held old next) (there : next.handles hdle = some value)
    (after : State R L) (files : after.files = next.files) : Survives state after hdle value := by
  cases released with
  | kept still =>
      exact put_survives held hdle old _ value found there rfl (fun failed => failed) after files
  | closed last failed =>
      have elsewhere : hdle ≠ held := by
        intro here
        simp [here] at there
      simp only [Function.update_of_ne elsewhere] at there
      -- The closed descriptor is not this handle's: two handles never share one.
      have apart : value.fd ≠ old.fd :=
        fun same => elsewhere (linked.same hdle held value old there found same)
      refine ⟨⟨value, there, rfl, fun failed => failed⟩, ?_⟩
      rw [files]
      simp only [Function.update_of_ne apart]

theorem moved_survives (linked : Linked config table state) (action : Action R L)
    (after : State R L) (moved : Moved config state action after) (hdle : HandleId)
    (value : SocketHandle) (live : after.handles hdle = some value) :
    state.nextHandle ≤ hdle ∨ Survives state after hdle value := by
  have stays (there : state.handles hdle = some value) :
      ∃ old, state.handles hdle = some old ∧ old.fd = value.fd ∧
        (old.failed = true → value.failed = true) :=
    ⟨value, there, rfl, fun failed => failed⟩
  -- A live handle changes by a count, a flag or what is read; only `create` makes a new one.
  cases moved with
  | exit | lock | waitFailed | waitListen | waitPipe | waitClient | acceptNone | count
  | bodyRejected | submit | submitFlushed | get | getNull | send | arrive | stop | flush =>
      exact Or.inr ⟨stays live, rfl⟩
  | acceptSome place free =>
      obtain ⟨conn, _, file⟩ := linked.connection hdle value live
      refine Or.inr ⟨stays live, ?_⟩
      apply Function.update_of_ne
      intro same
      rw [same, free] at file
      cases file
  | @create receiver fd place =>
      rw [linked.created receiver fd place] at live ⊢
      by_cases new : hdle = state.nextHandle
      · exact Or.inl (Nat.le_of_eq new.symm)
      · simp only [State.at, State.put, Function.update_of_ne new] at live
        exact Or.inr ⟨stays live, rfl⟩
  | add | rearmSubmitted | rearmRejected =>
      rw [add_input_fd_eq] at live ⊢
      exact Or.inr ⟨stays live, rfl⟩
  | acquire place found here | headerComplete place here | headerError place here
  | bodyComplete place accepted here | bodyShort place accepted here =>
      exact Or.inr (put_survives _ hdle _ _ value here live rfl (fun failed => failed) _ rfl)
  | flag place here =>
      exact Or.inr (put_survives _ hdle _ _ value here live rfl (fun _ => failed_flag _) _ rfl)
  | drop place here released | release place here released =>
      exact Or.inr (released_survives linked _ hdle _ value _ here released live _ rfl)

theorem moved_serving (action : Action R L) (after : State R L)
    (moved : Moved config state action after) (worker : Worker)
    (serving : Serving after worker) :
    Serving state worker ∨ ∃ receiver fd request,
      state.receivers receiver = .submitting fd worker.handle request worker.conn := by
  -- A step that leaves the list and the loaders alone.
  have same (next : State R L) (there : Serving next worker)
      (tasks : next.task_list = state.task_list) (loaders : next.loaders = state.loaders) :
      Serving state worker := by
    unfold Serving at *
    rwa [tasks, loaders] at there
  -- A loader that moves on without taking a worker.
  have kept (next : State R L) (there : Serving next worker) (loader : L) (place : Loader)
      (loaders : next.loaders = Function.update state.loaders loader place)
      (tasks : next.task_list = state.task_list)
      (mine : place = .working worker ∨ place = .replied worker → Serving state worker) :
      Serving state worker := by
    rcases there with queued | ⟨other, held⟩
    · exact Or.inl (tasks ▸ queued)
    · by_cases here : other = loader
      · rw [loaders, here, Function.update_self] at held
        exact mine held
      · rw [loaders, Function.update_of_ne here] at held
        exact Or.inr ⟨other, held⟩
  -- A worker comes into the list by `submit` and then goes from hand to hand.
  cases moved with
  | exit | lock | waitFailed | waitListen | waitPipe | waitClient | acceptNone | acceptSome
  | count | acquire | headerComplete | headerError | bodyRejected | bodyComplete | bodyShort
  | submitFlushed | flag | arrive | stop | flush => exact Or.inl serving
  | create =>
      refine Or.inl (same _ serving ?_ ?_) <;> rw [create_handle_eq] <;> rfl
  | add | rearmSubmitted | rearmRejected =>
      refine Or.inl (same _ serving ?_ ?_) <;> rw [add_input_fd_eq] <;> rfl
  | drop place live released =>
      refine Or.inl (same _ serving ?_ ?_) <;> cases released <;> rfl
  | submit place alive =>
      rcases serving with queued | held
      · rcases List.mem_append.mp queued with old | new
        · exact Or.inl (Or.inl old)
        · cases List.mem_singleton.mp new
          exact Or.inr ⟨_, _, _, place⟩
      · exact Or.inl (Or.inr held)
  | @get loader first rest place alive queue =>
      left
      rcases serving with queued | ⟨other, held⟩
      · exact Or.inl (by rw [queue]; exact List.mem_cons_of_mem _ queued)
      · by_cases here : other = loader
        · simp only [State.loading, here, Function.update_self] at held
          rcases held with working | replied
          · cases working
            exact Or.inl (by rw [queue]; exact List.mem_cons_self ..)
          · cases replied
        · simp only [State.loading, Function.update_of_ne here] at held
          exact Or.inr ⟨other, held⟩
  | getNull place flushed =>
      exact Or.inl (kept _ serving _ .finished rfl rfl (by rintro (⟨⟨⟩⟩ | ⟨⟨⟩⟩)))
  | send place live file =>
      refine Or.inl (kept _ serving _ (.replied _) rfl rfl ?_)
      rintro (⟨⟨⟩⟩ | ⟨⟨⟩⟩)
      exact Or.inr ⟨_, Or.inl place⟩
  | release place live released =>
      left
      cases released with
      | kept still => exact kept _ serving _ .waiting rfl rfl (by rintro (⟨⟨⟩⟩ | ⟨⟨⟩⟩))
      | closed last failed => exact kept _ serving _ .waiting rfl rfl (by rintro (⟨⟨⟩⟩ | ⟨⟨⟩⟩))

omit [DecidableEq R] [DecidableEq L] in
theorem serving_users [Fintype R] [Fintype L] (worker : Worker)
    (serving : Serving state worker) : 0 < users state worker.handle := by
  rcases serving with inside | ⟨loader, held⟩
  · have positive : 0 < queued worker.handle state.task_list :=
      List.countP_pos_iff.mpr ⟨worker, inside, decide_eq_true rfl⟩
    unfold users
    omega
  · have holds := serves_le state loader worker.handle
    rcases held with working | replied
    · rw [working] at holds
      simp only [serves, ↓reduceIte] at holds
      omega
    · rw [replied] at holds
      simp only [serves, ↓reduceIte] at holds
      omega

theorem moved_origins [Fintype R] [Fintype L] (linked : Linked config table state)
    (fresh : Fresh state) (origins : Origins state) (action : Action R L) (after : State R L)
    (moved : Moved config state action after) : Origins after := by
  intro worker serving value live
  rcases moved_serving action after moved worker serving with old | ⟨receiver, fd, request, place⟩
  · have used := serving_users worker old
    rcases moved_survives linked action after moved worker.handle value live with new | survives
    · rw [(fresh worker.handle new).1] at used
      exact absurd used (Nat.lt_irrefl 0)
    · obtain ⟨before, held, same, _⟩ := survives.held
      rw [survives.file, ← same]
      exact origins worker old before held
  · have stage := linked.owners receiver
    rw [place] at stage
    rcases moved_survives linked action after moved worker.handle value live with new | survives
    · have used := uses_le state receiver worker.handle
      rw [place] at used
      simp only [uses, ↓reduceIte, (fresh worker.handle new).1] at used
      exact absurd used (Nat.not_succ_le_zero 0)
    · obtain ⟨before, held, same, _⟩ := survives.held
      rw [survives.file, ← same]
      exact (held_value linked receiver fd _ _ before stage held).2.2

theorem moved_deleted (action : Action R L) (after : State R L)
    (moved : Moved config state action after) :
    after.deleted = state.deleted ∨
      ∃ hdle value, state.handles hdle = some value ∧ after.handles hdle = none ∧
        after.deleted = hdle :: state.deleted := by
  cases moved with
  | create =>
      left
      rw [create_handle_eq]
      rfl
  | add | rearmSubmitted | rearmRejected =>
      left
      rw [add_input_fd_eq]
      rfl
  | drop place live released | release place live released =>
      cases released with
      | kept still => exact Or.inl rfl
      | closed last failed => exact Or.inr ⟨_, _, live, Function.update_self .., rfl⟩
  | _ => exact Or.inl rfl

theorem moved_buried (linked : Linked config table state) (buried : Buried state)
    (action : Action R L) (after : State R L) (moved : Moved config state action after) :
    Buried after := by
  have grows := moved_grows action after moved
  have dead (hdle : HandleId) (gone : state.handles hdle = none ∧ hdle < state.nextHandle) :
      after.handles hdle = none ∧ hdle < after.nextHandle := by
    refine ⟨?_, Nat.lt_of_lt_of_le gone.2 grows⟩
    by_contra lives
    obtain ⟨value, lives⟩ := Option.ne_none_iff_exists'.mp lives
    rcases moved_survives linked action after moved hdle value lives with new | survives
    · exact absurd gone.2 (Nat.not_lt.mpr new)
    · obtain ⟨old, held, _⟩ := survives.held
      rw [gone.1] at held
      cases held
  rcases moved_deleted action after moved with same | ⟨hdle, value, live, gone, more⟩
  · exact ⟨same ▸ buried.once, fun hdle member => dead hdle (buried.gone hdle (same ▸ member))⟩
  · have created : hdle < state.nextHandle := by
      by_contra fresh
      rw [linked.freshHandle hdle (Nat.not_lt.mp fresh)] at live
      cases live
    have first : hdle ∉ state.deleted := by
      intro member
      rw [(buried.gone hdle member).1] at live
      cases live
    refine ⟨more ▸ List.nodup_cons.mpr ⟨first, buried.once⟩, ?_⟩
    intro other member
    rcases List.mem_cons.mp (more ▸ member) with same | earlier
    · exact same ▸ ⟨gone, Nat.lt_of_lt_of_le created grows⟩
    · exact dead other (buried.gone other earlier)

end Step

section Runs
variable [DecidableEq R] [Fintype R] [DecidableEq L] [Fintype L] {config : Config}

theorem reachable_origins (state : State R L) (reached : Running config state) :
    Origins state := by
  refine reached.invariant Origins ?_ ?_
  · intro state start worker serving value live
    subst start
    cases live
  · intro before action after earlier _ origins ran
    obtain ⟨table, linked⟩ := reachable_linked before earlier
    exact moved_origins linked (reachable_tracked before earlier).fresh origins action after
      (step_moved config before after action ran)

omit [Fintype L] in
theorem reachable_buried (state : State R L) (reached : Running config state) :
    Buried state := by
  refine reached.invariant Buried ?_ ?_
  · intro state start
    subst start
    exact ⟨List.nodup_nil, by simp [State.initial]⟩
  · intro before action after earlier _ buried ran
    obtain ⟨table, linked⟩ := reachable_linked before earlier
    exact moved_buried linked buried action after (step_moved config before after action ran)

/-- The count of no flagged handle reads one while it has more users than that. -/
def Covered (state : State R L) : Prop := ∀ hdle, RefCount.Covered (account state hdle)

/-- The runs in which no count of a flagged handle has wrapped. -/
abbrev RunningCovered (config : Config) (state : State R L) : Prop :=
  Transition.ReachableWhile (step config) (· = State.initial config R L)
    (fun before _ => Covered before) state

theorem covered_alive (state : State R L) (reached : RunningCovered config state)
    (hdle : HandleId) : RefCount.Alive (account state hdle) := by
  refine reached.invariant (fun state => ∀ hdle, RefCount.Alive (account state hdle)) ?_ ?_ hdle
  · intro state start hdle used
    subst start
    simp [account, users, State.initial, uses, serves, queued] at used
  · intro before action after earlier covered alive ran hdle
    have tracked := reachable_tracked before earlier.reachable
    obtain ⟨table, linked⟩ := reachable_linked before earlier.reachable
    exact (moved_account linked tracked.fresh tracked.drained action after
      (step_moved config before after action ran) hdle).alive (tracked.exact hdle)
      (covered hdle) (alive hdle)

theorem live_user (state : State R L) (reached : RunningCovered config state)
    (hdle : HandleId) (used : 0 < users state hdle) :
    ∃ value, state.handles hdle = some value := by
  have object := covered_alive state reached hdle used
  cases live : state.handles hdle with
  | none =>
      rw [account_absent state hdle live] at object
      exact absurd rfl object
  | some value => exact ⟨value, rfl⟩

/-- In such a run every handle that is used is live and on its connection, and
every handle is closed and deleted at most once. -/
theorem no_use_after_free (state : State R L) (reached : RunningCovered config state) :
    Sound state := by
  obtain ⟨table, linked⟩ := reachable_linked state reached.reachable
  refine ⟨?_, ?_, (reachable_buried state reached.reachable).once⟩
  · intro receiver hdle one
    have used := uses_le state receiver hdle
    rw [one] at used
    obtain ⟨value, live⟩ := live_user state reached hdle used
    obtain ⟨conn, _, file⟩ := linked.connection hdle value live
    refine ⟨value, conn, live, file, ?_⟩
    intro origin read
    have owns := linked.owners receiver
    cases place : state.receivers receiver <;> rw [place] at one read owns <;>
      simp only [reads, reduceCtorEq, Option.some.injEq] at read
    all_goals
      simp only [uses, ite_eq_left_iff, zero_ne_one, imp_false, not_not] at one
      subst one read
      obtain ⟨_, _, here⟩ := held_value linked receiver _ _ _ value owns live
      rw [here] at file
      cases file
      rfl
  · intro worker serving
    obtain ⟨value, live⟩ := live_user state reached worker.handle (serving_users worker serving)
    exact ⟨value, live, reachable_origins state reached.reachable worker serving value live⟩

end Runs

section Examples
variable [DecidableEq R] [Fintype R] [DecidableEq L] [Fintype L] {config : Config}

def covers (state : State R L) : Bool :=
  (List.range state.nextHandle).all fun hdle =>
    decide ((state.handles hdle).map SocketHandle.failed = some true →
      (users state hdle + state.invalid hdle) % 2 ^ 32 = 1 → users state hdle ≤ 1)

theorem covered_of_covers (state : State R L) (reached : Running config state)
    (checked : covers state = true) : Covered state := by
  intro hdle count object one
  obtain ⟨table, linked⟩ := reachable_linked state reached
  obtain ⟨value, live, same⟩ := Option.map_eq_some_iff.mp object
  have created : hdle < state.nextHandle := by
    by_contra fresh
    rw [linked.freshHandle hdle (Nat.not_lt.mp fresh)] at live
    cases live
  have flagged : (state.handles hdle).map SocketHandle.failed = some true := by
    rw [live, Option.map_some]
    exact congrArg some (congrArg Prod.snd same)
  exact of_decide_eq_true (List.all_eq_true.mp checked hdle (List.mem_range.mpr created))
    flagged one

theorem covered_run (actions : List (Action R L)) (shown : State R L → Bool)
    (ran : (Transition.execWhile (step config) (fun before _ => covers before)
      (State.initial config R L) actions).any shown = true) :
    ∃ state, RunningCovered config state ∧ shown state = true :=
  Transition.execWhile_reaches (fun before _ => covers before)
    (fun before _ reached checked => covered_of_covers before reached.reachable checked)
    (.start rfl) actions shown ran

end Examples

/-- A client leaves while its worker is with a loader: the receiver flags the handle and gives it
back, and the loader's release deletes it. -/
def flaggedRun {R L : Type} (receiver : R) (loader : L) : List (Server.Action R L) :=
  connect receiver 5 ++ request receiver 5 0 ++
    [.get loader, .send loader [] [.wrote 1024] [.wrote 1024]] ++ disconnect receiver 5 ++
    [.drop receiver, .release loader]

theorem no_use_after_free_replied : ∃ state : State (Fin 2) (Fin 1),
    (state.deleted = [0] ∧ state.receivers 1 = .parsed 5 1 [] 1) ∧ Sound state := by
  obtain ⟨state, reached, shown⟩ := covered_run
    (flaggedRun 0 0 ++ connect 0 5 ++ [.arrive 1 crlfcrlf] ++ event 1 5 ++
      [.acquire 1, .readHeader 1 [512]])
    (fun state : State (Fin 2) (Fin 1) => decide (state.deleted = [0] ∧
      state.receivers 1 = .parsed 5 1 [] 1))
    (by decide +kernel : (Transition.execWhile (step sample) _ _ _).any _ = true)
  exact ⟨state, of_decide_eq_true shown, no_use_after_free state reached⟩

/-! The condition cannot be dropped. Invalid packages on one connection, with a
worker of it still in a loader's hands, bring its count round to the value it
would have without them and the worker. -/

/-- After `count` invalid packages, with one worker answered and not yet released. -/
structure Wrapping (count : Nat) (state : State (Fin 2) (Fin 1)) : Prop where
  idle : ∀ receiver, state.receivers receiver = .idle
  free : state.epoll_mutex = none
  running : state.stop_task = false
  taken : state.ready_event_num = 0
  listening : state.interest 3 = true
  armed : state.interest 5 = true
  entry : state.m_fd_set.lookup 5 = some 0
  handle : state.handles 0 = some ⟨5, BitVec.ofNat 32 (count + 1), LISTEN_PORT_1, []⟩
  file : state.files 5 = some (.conn 0)
  unread : state.unread 0 = []
  replied : state.loaders 0 = .replied ⟨0, 0, 0, [], []⟩

theorem wrapping_start : ∃ state, Running sample state ∧ Wrapping 0 state := by
  obtain ⟨state, reached, checked⟩ := Transition.exec_reaches
    (.start rfl : Running sample (State.initial sample (Fin 2) (Fin 1)))
    (connect 0 5 ++ request 0 5 0 ++ [.get 0, .send 0 [] [.wrote 1024] [.wrote 1024]])
    (fun state => decide ((∀ receiver, state.receivers receiver = .idle) ∧
      state.epoll_mutex = none ∧ state.stop_task = false ∧ state.ready_event_num = 0 ∧
      state.interest 3 = true ∧ state.interest 5 = true ∧ state.m_fd_set.lookup 5 = some 0 ∧
      state.handles 0 = some ⟨5, BitVec.ofNat 32 1, LISTEN_PORT_1, []⟩ ∧
      state.files 5 = some (.conn 0) ∧ state.unread 0 = [] ∧
      state.loaders 0 = .replied ⟨0, 0, 0, [], []⟩))
    (by decide +kernel)
  obtain ⟨idle, free, running, taken, listening, armed, entry, handle, file, unread, replied⟩ :=
    of_decide_eq_true checked
  exact ⟨state, reached, idle, free, running, taken, listening, armed, entry, handle, file,
    unread, replied⟩

theorem wrapping_next (count : Nat) (state : State (Fin 2) (Fin 1))
    (wrapping : Wrapping count state) :
    ∃ after, Transition.exec (step sample) state (invalidPackage 0 5 0) = some after ∧
      Wrapping (count + 1) after := by
  have read : read_http_header_timeout ⟨[], crlfcrlf, [512]⟩ = (.complete [], ⟨[], [], []⟩) := by
    decide +kernel
  obtain ⟨idle, free, running, taken, listening, armed, entry, handle, file, unread, replied⟩ :=
    wrapping
  refine ⟨?after, ?ran, ?kept⟩
  case ran =>
    simp [Transition.exec, invalidPackage, event, step, lock, wait, fetch, Reported, dispatch,
      acquire, readHeader, readBody, rearm, connected, State.at, State.put, State.after,
      State.unlock, del_input_fd, add_input_fd, MAX_EPOLL_EVENT_NUM, sample, idle, free, running,
      taken, armed, entry, handle, file, unread, read, verdict]
    rfl
  case kept =>
    constructor <;> simp [listening, file, entry, replied, BitVec.ofNat_add (count + 1) 1]
    exact idle 1

theorem wrapping_reached (count : Nat) : ∃ state, Running sample state ∧ Wrapping count state := by
  induction count with
  | zero => exact wrapping_start
  | succ count ih =>
      obtain ⟨state, reached, wrapping⟩ := ih
      obtain ⟨after, ran, wraps⟩ := wrapping_next count state wrapping
      exact ⟨after, Transition.exec_reachable reached _ ran, wraps⟩

/-- The worker's release deletes the handle and closes its descriptor while the
receiver that has flagged it is still to release it. -/
structure Freed (state : State (Fin 2) (Fin 1)) : Prop where
  flagged : state.receivers 0 = .flagged 5 0
  idle : state.receivers 1 = .idle
  deleted : state.handles 0 = none
  closed : state.files 5 = none
  absent : 5 ∉ state.m_fd_set
  free : state.epoll_mutex = none
  running : state.stop_task = false
  taken : state.ready_event_num = 0
  listening : state.interest 3 = true

theorem freed_reached : ∃ state, Running sample state ∧ Freed state := by
  obtain ⟨state, reached, wrapping⟩ := wrapping_reached (2 ^ 32 - 1)
  obtain ⟨idle, free, running, taken, listening, armed, entry, handle, file, unread, replied⟩ :=
    wrapping
  -- With the worker's own reference the count has come round to zero.
  have zero : BitVec.ofNat 32 (2 ^ 32 - 1 + 1) = 0 := by decide
  rw [zero] at handle
  have read : read_http_header_timeout ⟨[], [], []⟩ = (.error, ⟨[], [], []⟩) := by
    decide +kernel
  have flag : ¬ (LISTEN_PORT_1 ||| ERROR_SOCKET) &&& ERROR_SOCKET = 0#32 := by decide
  suffices ran : ∃ after, Transition.exec (step sample) state
      (disconnect 0 5 ++ [.release 0]) = some after ∧ Freed after by
    obtain ⟨after, ran, freed⟩ := ran
    exact ⟨after, Transition.exec_reachable reached _ ran, freed⟩
  refine ⟨?after, ?ran, ?kept⟩
  case ran =>
    simp [Transition.exec, disconnect, event, step, lock, wait, fetch, Reported, dispatch,
      acquire, readHeader, Server.flag, release, release_handle, connected, State.at, State.put,
      State.after, State.unlock, State.loading, del_input_fd, SocketHandle.failed,
      MAX_EPOLL_EVENT_NUM, sample, idle, free, running, taken, armed, entry, handle, file,
      unread, read, replied, flag]
    rfl
  case kept => constructor <;> simp [listening, idle]

/-- One request and 2^32 - 1 invalid packages on a connection, then its peer
leaves: a handle is deleted while a receiver is inside `recv_request` on it. -/
theorem wrapped_count_frees_handle :
    ∃ state : State (Fin 2) (Fin 1), Running sample state ∧ ¬ Sound state := by
  obtain ⟨state, reached, freed⟩ := freed_reached
  refine ⟨state, reached, ?_⟩
  intro sound
  obtain ⟨value, conn, live, _⟩ := sound.receiving 0 0 (by rw [freed.flagged]; rfl)
  rw [freed.deleted] at live
  cases live

end AsrServer.Lifetime
