import AsrServer.RefCount
import AsrServer.ConnectionTable

/-!
The references to a `SocketHandle`. A receiver holds one from `get_handle` until
it submits its worker or releases, a worker one from then on. An invalid package
is where a reference is lost: `recv_request` returns without releasing. Handle
by handle the server refines the reference count of `RefCount`, with the invalid
packages as the lost references.
-/

namespace AsrServer.References

open Bytes Server Ownership

def uses (hdle : HandleId) : Receiver → Nat
  | .receiving _ held | .parsed _ held _ _ | .submitting _ held _ _ | .rejecting _ held
  | .failing _ held | .flagged _ held => if held = hdle then 1 else 0
  | _ => 0

def serves (hdle : HandleId) : Loader → Nat
  | .working worker | .replied worker => if worker.handle = hdle then 1 else 0
  | _ => 0

def queued (hdle : HandleId) (workers : List Worker) : Nat :=
  workers.countP fun worker => worker.handle = hdle

variable {R L : Type} [Fintype R] [Fintype L]

/-- The workers queued or in process that hold the handle, and the receivers
inside `recv_request` that do. -/
def users (state : State R L) (hdle : HandleId) : Nat :=
  (∑ receiver, uses hdle (state.receivers receiver)) + queued hdle state.task_list +
    ∑ loader, serves hdle (state.loaders loader)

def account (state : State R L) (hdle : HandleId) : RefCount.Account 32 where
  object := (state.handles hdle).map fun value => (value.ref, value.failed)
  users := users state hdle
  lost := state.invalid hdle

theorem account_live (state : State R L) (hdle : HandleId) (value : SocketHandle)
    (live : state.handles hdle = some value) :
    account state hdle =
      ⟨some (value.ref, value.failed), users state hdle, state.invalid hdle⟩ := by
  unfold account
  rw [live, Option.map_some]

theorem account_absent (state : State R L) (hdle : HandleId)
    (absent : state.handles hdle = none) :
    account state hdle = ⟨none, users state hdle, state.invalid hdle⟩ := by
  unfold account
  rw [absent, Option.map_none]

def Fresh (state : State R L) : Prop :=
  ∀ hdle, state.nextHandle ≤ hdle → users state hdle = 0 ∧ state.invalid hdle = 0

/-- The task list is flushed only when the receivers are gone. -/
def Drained (state : State R L) : Prop :=
  state.alive = false → ∀ receiver, state.receivers receiver = .exited

theorem users_receiver [DecidableEq R] (state after : State R L) (receiver : R)
    (old place : Receiver) (here : state.receivers receiver = old)
    (receivers : after.receivers = Function.update state.receivers receiver place)
    (loaders : after.loaders = state.loaders) (hdle : HandleId) :
    users after hdle + uses hdle old + queued hdle state.task_list =
      users state hdle + uses hdle place + queued hdle after.task_list := by
  have moved := Transition.sum_update (uses hdle) state.receivers receiver place
  unfold users
  rw [receivers, loaders]
  rw [here] at moved
  omega

theorem users_thread [DecidableEq R] (state after : State R L) (receiver : R)
    (old place : Receiver) (here : state.receivers receiver = old)
    (receivers : after.receivers = Function.update state.receivers receiver place)
    (same : (after.loaders, after.task_list) = (state.loaders, state.task_list))
    (hdle : HandleId) :
    users after hdle + uses hdle old = users state hdle + uses hdle place := by
  simp only [Prod.mk.injEq] at same
  have moved := users_receiver state after receiver old place here receivers same.1 hdle
  rw [same.2] at moved
  omega

theorem users_loader [DecidableEq L] (state after : State R L) (loader : L)
    (old place : Loader) (here : state.loaders loader = old)
    (loaders : after.loaders = Function.update state.loaders loader place)
    (receivers : after.receivers = state.receivers) (hdle : HandleId) :
    users after hdle + serves hdle old + queued hdle state.task_list =
      users state hdle + serves hdle place + queued hdle after.task_list := by
  have moved := Transition.sum_update (serves hdle) state.loaders loader place
  unfold users
  rw [receivers, loaders]
  rw [here] at moved
  omega

theorem uses_le (state : State R L) (receiver : R) (hdle : HandleId) :
    uses hdle (state.receivers receiver) ≤ users state hdle := by
  have one := Transition.weight_le_sum (uses hdle) state.receivers receiver
  unfold users
  omega

theorem serves_le (state : State R L) (loader : L) (hdle : HandleId) :
    serves hdle (state.loaders loader) ≤ users state hdle := by
  have one := Transition.weight_le_sum (serves hdle) state.loaders loader
  unfold users
  omega

section Step
variable [DecidableEq R] [DecidableEq L] {config : Config} {table : Fd → Stage R}
  {state : State R L}

omit [DecidableEq R] [DecidableEq L] in
theorem account_same (state after : State R L) (hdle : HandleId)
    (object : (after.handles hdle).map (fun value => (value.ref, value.failed)) =
      (state.handles hdle).map fun value => (value.ref, value.failed))
    (same : users after hdle = users state hdle)
    (invalid : after.invalid hdle = state.invalid hdle) :
    RefCount.Step (account state hdle) (account after hdle) := by
  have equal : account after hdle = account state hdle := by
    unfold account
    rw [object, same, invalid]
  rw [equal]
  exact .same _

omit [Fintype R] [Fintype L] [DecidableEq R] [DecidableEq L] in
theorem object_put (hdle other : HandleId) (value next : SocketHandle)
    (live : state.handles hdle = some value)
    (same : (next.ref, next.failed) = (value.ref, value.failed)) :
    ((state.put hdle next).handles other).map (fun value => (value.ref, value.failed)) =
      (state.handles other).map fun value => (value.ref, value.failed) := by
  by_cases here : other = hdle
  · subst here
    simp [State.put, live, same]
  · simp [State.put, here]

omit [DecidableEq L] in
theorem thread_account (state after : State R L) (hdle : HandleId) (receiver : R)
    (old place : Receiver) (here : state.receivers receiver = old)
    (receivers : after.receivers = Function.update state.receivers receiver place)
    (same : (after.loaders, after.invalid) = (state.loaders, state.invalid))
    (balance : uses hdle place + queued hdle after.task_list =
      uses hdle old + queued hdle state.task_list)
    (object : (after.handles hdle).map (fun value => (value.ref, value.failed)) =
      (state.handles hdle).map fun value => (value.ref, value.failed)) :
    RefCount.Step (account state hdle) (account after hdle) := by
  simp only [Prod.mk.injEq] at same
  have moved := users_receiver state after receiver old place here receivers same.1 hdle
  exact account_same state after hdle object (by omega) (by rw [same.2])

omit [DecidableEq R] in
theorem loader_account (state after : State R L) (hdle : HandleId) (loader : L)
    (old place : Loader) (here : state.loaders loader = old)
    (loaders : after.loaders = Function.update state.loaders loader place)
    (same : (after.receivers, after.handles, after.invalid) =
      (state.receivers, state.handles, state.invalid))
    (balance : serves hdle place + queued hdle after.task_list =
      serves hdle old + queued hdle state.task_list) :
    RefCount.Step (account state hdle) (account after hdle) := by
  simp only [Prod.mk.injEq] at same
  have moved := users_loader state after loader old place here loaders same.1 hdle
  exact account_same state after hdle (by rw [same.2.1]) (by omega) (by rw [same.2.2])

omit [DecidableEq R] [DecidableEq L] in
theorem released_account (hdle other : HandleId) (value : SocketHandle)
    (next after : State R L)
    (live : state.handles hdle = some value) (released : Released state hdle value next)
    (handles : after.handles = next.handles) (invalid : after.invalid = state.invalid)
    (gone : users after other + (if hdle = other then 1 else 0) = users state other) :
    RefCount.Step (account state other) (account after other) := by
  by_cases here : other = hdle
  · subst here
    rw [if_pos rfl] at gone
    have before : account state other =
        ⟨some (value.ref, value.failed), users after other + 1, state.invalid other⟩ := by
      rw [account_live state other value live, gone]
    rw [before]
    cases released with
    | kept still =>
        have counted : after.handles other = some { value with ref := value.ref - 1 } := by
          rw [handles]
          simp only [State.put, Function.update_self]
        rw [account_live after other _ counted, invalid]
        exact .release _ _ _ _ still
    | closed last failed =>
        have deleted : after.handles other = none := by
          rw [handles]
          simp only [Function.update_self]
        rw [account_absent after other deleted, invalid, failed]
        exact .delete _ _ _ last
  · rw [if_neg (Ne.symm here), Nat.add_zero] at gone
    refine account_same state after other ?_ gone (by rw [invalid])
    rw [handles]
    cases released with
    | kept still => simp only [State.put, Function.update_of_ne here]
    | closed last failed => simp only [Function.update_of_ne here]

omit [DecidableEq L] in
theorem create_account (linked : Linked config table state) (fresh : Fresh state)
    (receiver : R) (fd : Fd) (place : state.receivers receiver = .counted fd)
    (other : HandleId) :
    RefCount.Step (account state other)
      (account ((create_handle state fd LISTEN_PORT_1).at receiver (.inserted fd)) other) := by
  rw [linked.created receiver fd place]
  have still := users_thread state
    (State.at { state.put state.nextHandle ⟨fd, 0, LISTEN_PORT_1, []⟩ with
      nextHandle := state.nextHandle + 1
      m_fd_set := state.m_fd_set.insert fd state.nextHandle } receiver (.inserted fd))
    receiver _ (.inserted fd) place rfl rfl other
  simp only [uses, Nat.add_zero] at still
  by_cases new : other = state.nextHandle
  · obtain ⟨unused, valid⟩ := fresh other (Nat.le_of_eq new.symm)
    have created : (State.at { state.put state.nextHandle ⟨fd, 0, LISTEN_PORT_1, []⟩ with
        nextHandle := state.nextHandle + 1
        m_fd_set := state.m_fd_set.insert fd state.nextHandle } receiver (.inserted fd)).handles
          other = some ⟨fd, 0, LISTEN_PORT_1, []⟩ := by
      simp only [State.at, State.put, new, Function.update_self]
    have unflagged : SocketHandle.failed ⟨fd, 0, LISTEN_PORT_1, []⟩ = false := by
      simp [SocketHandle.failed, LISTEN_PORT_1, ERROR_SOCKET]
    rw [account_absent state other (linked.freshHandle other (Nat.le_of_eq new.symm)),
      account_live _ other _ created, still, unused, unflagged]
    change RefCount.Step ⟨_, _, state.invalid other⟩ ⟨_, _, state.invalid other⟩
    rw [valid]
    exact .create
  · refine account_same state _ other ?_ still rfl
    simp only [State.at, State.put, Function.update_of_ne new]

omit [DecidableEq L] in
theorem acquire_account (linked : Linked config table state) (receiver : R) (fd : Fd)
    (hdle : HandleId) (value : SocketHandle)
    (place : state.receivers receiver = .dispatched fd)
    (found : state.m_fd_set.lookup fd = some hdle) (live : state.handles hdle = some value)
    (other : HandleId) :
    RefCount.Step (account state other) (account ((state.put hdle
      { value with ref := value.ref + 1 }).at receiver (.receiving fd hdle)) other) := by
  obtain ⟨held, conn, stage⟩ := place ▸ linked.owners receiver
  rw [linked.mapped, stage] at found
  cases found
  obtain ⟨_, unflagged, _⟩ := held_value linked receiver fd hdle conn value stage live
  have moved := users_thread state ((state.put hdle
    { value with ref := value.ref + 1 }).at receiver (.receiving fd hdle)) receiver _
    (.receiving fd hdle) place rfl rfl other
  by_cases here : other = hdle
  · subst here
    simp only [uses, ↓reduceIte, Nat.add_zero] at moved
    have counted : ((state.put other { value with ref := value.ref + 1 }).at receiver
        (.receiving fd other)).handles other = some { value with ref := value.ref + 1 } := by
      simp only [State.at, State.put, Function.update_self]
    have still : SocketHandle.failed { value with ref := value.ref + 1 } = false := unflagged
    rw [account_live state other value live, account_live _ other _ counted, moved, unflagged,
      still]
    exact .acquire _ _ _
  · simp only [uses, if_neg (Ne.symm here), Nat.add_zero] at moved
    refine account_same state _ other ?_ moved rfl
    simp only [State.at, State.put, Function.update_of_ne here]

omit [DecidableEq L] in
/-- An invalid package: the thread leaves with the reference still counted. -/
theorem reject_account (linked : Linked config table state) (receiver : R) (fd : Fd)
    (hdle : HandleId) (place : state.receivers receiver = .rejecting fd hdle)
    (other : HandleId) :
    RefCount.Step (account state other)
      (account { (add_input_fd state fd).at receiver .idle with
        invalid := Function.update state.invalid hdle (state.invalid hdle + 1) } other) := by
  obtain ⟨conn, stage⟩ := place ▸ linked.owners receiver
  obtain ⟨value, live, _⟩ := linked.entry fd hdle (by rw [stage]; rfl)
  obtain ⟨_, unflagged, file⟩ := held_value linked receiver fd hdle conn value stage live
  have opened : state.files fd = some (.conn conn) := by rw [linked.file, stage]; rfl
  rw [add_open state fd _ opened]
  have moved := users_thread state
    { State.at { state with interest := Function.update state.interest fd true } receiver .idle
      with invalid := Function.update state.invalid hdle (state.invalid hdle + 1) }
    receiver _ .idle place rfl rfl other
  by_cases here : other = hdle
  · subst here
    simp only [uses, ↓reduceIte, Nat.add_zero] at moved
    rw [account_live state other value live, unflagged, ← moved]
    unfold account
    simp only [State.at, live, Option.map_some, unflagged, Function.update_self]
    exact .lose _ _ _
  · simp only [uses, if_neg (Ne.symm here), Nat.add_zero] at moved
    refine account_same state _ other rfl moved ?_
    simp only [Function.update_of_ne here]

omit [DecidableEq L] in
theorem flag_account (linked : Linked config table state) (receiver : R) (fd : Fd)
    (hdle : HandleId) (value : SocketHandle) (place : state.receivers receiver = .failing fd hdle)
    (live : state.handles hdle = some value) (other : HandleId) :
    RefCount.Step (account state other) (account ((state.put hdle
      { value with flag := value.flag ||| ERROR_SOCKET }).at receiver (.flagged fd hdle))
        other) := by
  obtain ⟨conn, stage⟩ := place ▸ linked.owners receiver
  obtain ⟨_, unflagged, _⟩ := held_value linked receiver fd hdle conn value stage live
  have moved := users_thread state ((state.put hdle
    { value with flag := value.flag ||| ERROR_SOCKET }).at receiver (.flagged fd hdle)) receiver _
    (.flagged fd hdle) place rfl rfl other
  simp only [uses] at moved
  have still := Nat.add_right_cancel moved
  by_cases here : other = hdle
  · subst here
    have holds := uses_le state receiver other
    rw [place] at holds
    simp only [uses, ↓reduceIte] at holds
    obtain ⟨fewer, count⟩ := Nat.exists_eq_add_of_le' holds
    have flagged : ((state.put other { value with flag := value.flag ||| ERROR_SOCKET }).at
        receiver (.flagged fd other)).handles other =
          some { value with flag := value.flag ||| ERROR_SOCKET } := by
      simp only [State.at, State.put, Function.update_self]
    rw [account_live state other value live, account_live _ other _ flagged, still, count,
      unflagged, failed_flag]
    exact .mark _ _ _
  · refine account_same state _ other ?_ still rfl
    simp only [State.at, State.put, Function.update_of_ne here]

omit [DecidableEq L] in
theorem drop_account (receiver : R) (fd : Fd) (hdle : HandleId) (value : SocketHandle)
    (next : State R L) (place : state.receivers receiver = .flagged fd hdle)
    (live : state.handles hdle = some value) (released : Released state hdle value next)
    (other : HandleId) :
    RefCount.Step (account state other) (account (next.at receiver .idle) other) := by
  refine released_account hdle other value next _ live released rfl ?_ ?_
  · cases released <;> rfl
  · refine users_thread state (next.at receiver .idle) receiver _ .idle place ?_ ?_ other
    · cases released <;> rfl
    · cases released <;> rfl

omit [DecidableEq R] in
theorem release_account (loader : L) (worker : Worker) (value : SocketHandle)
    (next : State R L) (place : state.loaders loader = .replied worker)
    (live : state.handles worker.handle = some value)
    (released : Released state worker.handle value next) (other : HandleId) :
    RefCount.Step (account state other) (account (next.loading loader .waiting) other) := by
  refine released_account worker.handle other value next _ live released rfl ?_ ?_
  · cases released <;> rfl
  · have moved := users_loader state (next.loading loader .waiting) loader _ .waiting place
      (by cases released <;> rfl) (by cases released <;> rfl) other
    have tasks : (next.loading loader .waiting).task_list = state.task_list := by
      cases released <;> rfl
    rw [tasks] at moved
    exact Nat.add_right_cancel moved

/-- Every step of the server is one of the reference count, for each handle. -/
theorem moved_account (linked : Linked config table state) (fresh : Fresh state)
    (drained : Drained state) (action : Action R L) (after : State R L)
    (moved : Moved config state action after) (hdle : HandleId) :
    RefCount.Step (account state hdle) (account after hdle) := by
  cases moved with
  | exit place | lock place | waitListen place | waitPipe place | waitClient place
  | acceptNone place | acceptSome place | count place | bodyRejected place =>
      exact thread_account state _ hdle _ _ _ place rfl rfl rfl rfl
  | headerComplete place live | headerError place live | bodyComplete place _ live
  | bodyShort place _ live =>
      exact thread_account state _ hdle _ _ _ place rfl rfl rfl (object_put _ hdle _ _ live rfl)
  | arrive | stop | flush => exact .same _
  | waitFailed next ends place fetches negative =>
      refine thread_account state _ hdle _ _ next place rfl rfl ?_ rfl
      rcases ends with same | same <;> rw [same] <;> rfl
  | create place => exact create_account linked fresh _ _ place hdle
  | add place =>
      refine thread_account state _ hdle _ _ .accepting place ?_ ?_ ?_ ?_ <;>
        rw [add_input_fd_eq] <;> rfl
  | acquire place found live => exact acquire_account linked _ _ _ _ place found live hdle
  | submit place alive =>
      refine thread_account state _ hdle _ _ _ place rfl rfl ?_ rfl
      simp only [uses, queued, List.countP_append, List.countP_singleton,
        decide_eq_true_eq]
      omega
  | @submitFlushed receiver fd held request conn place flushed =>
      -- The list is flushed only once every receiver has left.
      have gone := drained flushed receiver
      rw [place] at gone
      cases gone
  | rearmSubmitted place =>
      refine thread_account state _ hdle _ _ .idle place ?_ ?_ ?_ ?_ <;>
        rw [add_input_fd_eq] <;> rfl
  | rearmRejected place => exact reject_account linked _ _ _ place hdle
  | flag place live => exact flag_account linked _ _ _ _ place live hdle
  | drop place live released => exact drop_account _ _ _ _ _ place live released hdle
  | get place alive queue =>
      refine loader_account state _ hdle _ _ _ place rfl rfl ?_
      simp only [serves, queued, queue, List.countP_cons, decide_eq_true_eq]
      omega
  | getNull place flushed => exact loader_account state _ hdle _ _ _ place rfl rfl rfl
  | send place live file => exact loader_account state _ hdle _ _ _ place rfl rfl rfl
  | release place live released => exact release_account _ _ _ _ place live released hdle

omit [Fintype R] [Fintype L] in
theorem moved_grows (action : Action R L) (after : State R L)
    (moved : Moved config state action after) : state.nextHandle ≤ after.nextHandle := by
  cases moved with
  | create place =>
      rw [create_handle_eq]
      exact Nat.le_succ _
  | add place | rearmSubmitted place | rearmRejected place =>
      rw [add_input_fd_eq]
      exact Nat.le_refl _
  | drop place live released | release place live released =>
      cases released <;> exact Nat.le_refl _
  | _ => exact Nat.le_refl _

theorem moved_fresh (linked : Linked config table state) (fresh : Fresh state)
    (drained : Drained state) (action : Action R L) (after : State R L)
    (moved : Moved config state action after)
    (later : ∀ hdle, after.nextHandle ≤ hdle → after.handles hdle = none) : Fresh after := by
  have grows := moved_grows action after moved
  intro hdle new
  have old := Nat.le_trans grows new
  obtain ⟨unused, valid⟩ := fresh hdle old
  have step := moved_account linked fresh drained action after moved hdle
  have gone : (account after hdle).object = none := by
    rw [account_absent after hdle (later hdle new)]
  rw [account_absent state hdle (linked.freshHandle hdle old), unused, valid] at step
  generalize shape : account after hdle = next at step gone
  cases step with
  | same =>
      have users := congrArg RefCount.Account.users shape
      have lost := congrArg RefCount.Account.lost shape
      exact ⟨users, lost⟩
  | create => cases gone

omit [Fintype R] [Fintype L] in
theorem moved_drained (drained : Drained state) (action : Action R L) (after : State R L)
    (moved : Moved config state action after) : Drained after := by
  intro dead
  -- Any other receiver that moves is not gone, so the list is still alive.
  have busy (receiver : R) (place : Receiver) (here : state.receivers receiver = place)
      (running : place ≠ .exited) (still : after.alive = state.alive) : False :=
    running (here.symm.trans (drained (still.symm.trans dead) receiver))
  cases moved with
  | flush exited => exact exited
  | get | getNull | send | arrive | stop => exact drained dead
  | release place live released => cases released <;> exact drained dead
  | exit place | lock place | waitListen place | waitPipe place | waitClient place
  | acceptNone place | acceptSome place | count place | acquire place | headerComplete place
  | headerError place | bodyRejected place | bodyComplete place | bodyShort place
  | submit place | submitFlushed place | flag place => exact (busy _ _ place nofun rfl).elim
  | waitFailed next ends place => exact (busy _ _ place nofun rfl).elim
  | create place =>
      refine (busy _ _ place nofun ?_).elim
      rw [create_handle_eq]
      rfl
  | add place | rearmSubmitted place | rearmRejected place =>
      refine (busy _ _ place nofun ?_).elim
      rw [add_input_fd_eq]
      rfl
  | drop place live released => cases released <;> exact (busy _ _ place nofun rfl).elim

end Step

/-! The facts about references that every reachable state has. -/

structure Tracked (state : State R L) : Prop where
  fresh : Fresh state
  drained : Drained state
  exact : ∀ hdle, RefCount.Exact (account state hdle)

section Runs
variable [DecidableEq R] [DecidableEq L] {config : Config}

theorem reachable_tracked (state : State R L) (reached : Running config state) :
    Tracked state := by
  refine reached.invariant Tracked ?_ ?_
  · intro state start
    subst start
    have unused (hdle : HandleId) : users (State.initial config R L) hdle = 0 := by
      simp [users, State.initial, uses, serves, queued]
    constructor
    case fresh => exact fun hdle _ => ⟨unused hdle, rfl⟩
    case drained =>
      intro dead
      cases dead
    case exact => exact fun hdle => RefCount.Exact.absent _ rfl
  · intro before action after earlier _ tracked ran
    have moved := step_moved config before after action ran
    obtain ⟨table, linked⟩ := reachable_linked before earlier
    obtain ⟨next, later, _⟩ := moved_refines linked action after moved
    exact ⟨moved_fresh linked tracked.fresh tracked.drained action after moved later.freshHandle,
      moved_drained tracked.drained action after moved,
      fun hdle => (moved_account linked tracked.fresh tracked.drained action after moved
        hdle).exact (tracked.exact hdle)⟩

/-- `_ref` is the number of users, and a handle flagged ERROR_SOCKET that nobody
uses is gone. -/
structure CountsExact (state : State R L) : Prop where
  counted : ∀ fd hdle value, state.m_fd_set.lookup fd = some hdle →
    state.handles hdle = some value → value.ref.toInt = users state hdle
  reclaimed : ∀ hdle value, state.handles hdle = some value → value.failed = true →
    0 < users state hdle

/-- The counts are exact as long as no connection that is still open has sent an
invalid package, up to multiples of the range of `int`, and only then. -/
theorem counts_exact (state : State R L) (reached : Running config state) :
    CountsExact state ↔
      ∀ hdle value, state.handles hdle = some value →
        state.invalid hdle % 2 ^ 32 = 0 ∧ 2 * users state hdle < 2 ^ 32 := by
  obtain ⟨table, linked⟩ := reachable_linked state reached
  have tracked := reachable_tracked state reached
  have object (hdle : HandleId) (value : SocketHandle) (live : state.handles hdle = some value) :
      (account state hdle).object = some (value.ref, value.failed) := by
    rw [account_live state hdle value live]
  constructor
  · intro exact hdle value live
    have entry : state.m_fd_set.lookup value.fd = some hdle := by
      rw [linked.mapped, linked.live hdle value live]
    exact ((tracked.exact hdle).signed value.ref value.failed (object hdle value live)).mp
      (exact.counted value.fd hdle value entry live)
  · intro within
    constructor
    · intro fd hdle value _ live
      exact ((tracked.exact hdle).signed value.ref value.failed (object hdle value live)).mpr
        (within hdle value live)
    · intro hdle value live failed
      have marked := object hdle value live
      rw [failed] at marked
      exact (tracked.exact hdle).reclaimed (within hdle value live).1 value.ref marked

end Runs

/-- After an invalid package and a disconnect the flagged handle is still there,
with a count of one and nobody who uses it. -/
theorem invalid_package_keeps_handle :
    ∃ state : State (Fin 1) (Fin 1), Running sample state ∧ ¬ CountsExact state := by
  obtain ⟨state, reached, shown⟩ := Transition.exec_reaches
    (.start rfl : Running sample (State.initial sample (Fin 1) (Fin 1)))
    (connect 0 5 ++ invalidPackage 0 5 0 ++ disconnect 0 5 ++ [.drop 0])
    (fun state => decide (state.handles 0 = some ⟨5, 1, LISTEN_PORT_1 ||| ERROR_SOCKET, []⟩ ∧
      users state 0 = 0))
    (by decide +kernel)
  obtain ⟨live, unused⟩ := of_decide_eq_true shown
  refine ⟨state, reached, ?_⟩
  intro exact
  have used := exact.reclaimed 0 _ live (by decide)
  rw [unused] at used
  exact absurd used (Nat.lt_irrefl 0)

theorem counts_exact_replied : ∃ state : State (Fin 1) (Fin 1),
    state.loaders 0 = .replied ⟨0, 0, 0, [], []⟩ ∧ CountsExact state := by
  obtain ⟨state, reached, shown⟩ := Transition.exec_reaches
    (.start rfl : Running sample (State.initial sample (Fin 1) (Fin 1)))
    (connect 0 5 ++ request 0 5 0 ++ [.get 0, .send 0 [] [.wrote 1024] [.wrote 1024]])
    (fun state => decide (state.loaders 0 = .replied ⟨0, 0, 0, [], []⟩ ∧
      state.nextHandle = 1 ∧ state.invalid 0 = 0 ∧ users state 0 = 1))
    (by decide +kernel)
  obtain ⟨replied, created, valid, one⟩ := of_decide_eq_true shown
  obtain ⟨table, linked⟩ := reachable_linked state reached
  refine ⟨state, replied, (counts_exact state reached).mpr ?_⟩
  intro hdle value live
  have only : hdle = 0 := by
    by_contra other
    rw [linked.freshHandle hdle (by rw [created]; exact Nat.one_le_iff_ne_zero.mpr other)] at live
    cases live
  subst only
  rw [valid, one]
  decide

end AsrServer.References
