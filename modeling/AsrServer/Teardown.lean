import AsrServer.AtRest

/-!
The end of the server. `main` stops the two pools and leaves the block that holds them, and
`~Http_Server` goes over `m_fd_set`. Whatever has happened before, each handle that was ever
created has then been deleted once and each descriptor closed once. The closes of `_epoll_fd` and
`_pipe_write` are left out: no other step of the server opens or closes these two.
-/

namespace AsrServer.Teardown

open Server Ownership References Lifetime AtRest

variable {R L : Type}

/-- `::close`, and what the descriptor was open on. -/
def close (state : State R L) (fd : Fd) : State R L × Option File :=
  ({ state with files := Function.update state.files fd none }, state.files fd)

/-- The loop of `~Http_Server`: none is a use of a deleted handle. -/
def destroy_loop (state : State R L) : List Fd → Option (State R L × List (Option File))
  | [] => some (state, [])
  | key :: later =>
      match state.m_fd_set.lookup key with
      | none => destroy_loop state later
      | some second =>
          match state.handles second with
          | none => none
          | some value =>
              let (state, file) := close state value.fd
              let state := { state with
                handles := Function.update state.handles second none
                deleted := second :: state.deleted }
              (destroy_loop state later).map fun (after, files) => (after, file :: files)

/-- `~Http_Server`: what is left, and what each `::close` has closed. A `std::map` goes up. -/
def destroy (config : Config) (state : State R L) :
    Option (State R L × List (Option File)) :=
  let (state, pipe) := close state config.pipe_read
  let (state, listen) := close state config.listen
  (destroy_loop state (state.m_fd_set.keys.mergeSort (· ≤ ·))).map fun (after, files) =>
    (after, pipe :: listen :: files)

def Created (state : State R L) : Prop :=
  ∀ hdle < state.nextHandle, state.handles hdle = none → hdle ∈ state.deleted

section Step
variable [DecidableEq R] [DecidableEq L] {config : Config} {table : Fd → Stage R}
  {state : State R L}

omit [DecidableEq R] [DecidableEq L] in
theorem created_put (created : Created state) (hdle : HandleId) (value : SocketHandle) :
    Created (state.put hdle value) := by
  intro other below absent
  by_cases same : other = hdle
  · simp [State.put, same] at absent
  · exact created other below (by simpa [State.put, same] using absent)

omit [DecidableEq R] [DecidableEq L] in
theorem released_created (created : Created state) (hdle : HandleId) (value : SocketHandle)
    (next : State R L) (released : Released state hdle value next) : Created next := by
  cases released with
  | kept still => exact created_put created hdle _
  | closed last failed =>
      intro other below absent
      by_cases same : other = hdle
      · exact same ▸ List.mem_cons_self ..
      · exact List.mem_cons_of_mem _
          (created other below (by simpa [Function.update_of_ne same] using absent))

theorem moved_created (linked : Linked config table state) (created : Created state)
    (action : Action R L) (after : State R L) (moved : Moved config state action after) :
    Created after := by
  cases moved with
  | acquire | headerComplete | headerError | bodyComplete | bodyShort | flag =>
      exact created_put created _ _
  | @create receiver fd place =>
      rw [linked.created receiver fd place]
      intro hdle below absent
      by_cases same : hdle = state.nextHandle
      · simp [State.put, State.at, same] at absent
      · have earlier : hdle < state.nextHandle := Nat.lt_of_le_of_ne (Nat.lt_succ_iff.mp below) same
        exact created hdle earlier (by simpa [State.put, State.at, same] using absent)
  | add | rearmSubmitted | rearmRejected =>
      rw [add_input_fd_eq]
      exact created
  | @drop _ _ hdle value next _ _ released =>
      have fine : Created next := released_created created hdle value next released
      exact fine
  | @release _ worker value next _ _ released =>
      have fine : Created next := released_created created worker.handle value next released
      exact fine
  | _ => exact created

end Step

section Runs
variable [DecidableEq R] [Fintype R] [DecidableEq L] {config : Config}

theorem reachable_created (state : State R L) (reached : Running config state) :
    Created state := by
  refine reached.invariant Created ?_ ?_
  · intro state start
    subst start
    intro hdle below
    exact absurd below (Nat.not_lt_zero _)
  · intro before action after earlier _ created ran
    obtain ⟨table, linked⟩ := reachable_linked before earlier
    exact moved_created linked created action after (step_moved config before after action ran)

/-- What the loop of the destructor has before it: the handles of the descriptors to come are
the ones there are. -/
structure Remains (state : State R L) (keys : List Fd) : Prop where
  once : keys.Nodup
  entry : ∀ key ∈ keys, ∃ hdle value, state.m_fd_set.lookup key = some hdle ∧
    state.handles hdle = some value ∧ value.fd = key ∧ state.files key ≠ none
  live : ∀ hdle value, state.handles hdle = some value →
    value.fd ∈ keys ∧ state.m_fd_set.lookup value.fd = some hdle
  file : ∀ fd, state.files fd ≠ none → fd ∈ keys
  deleted : state.deleted.Nodup ∧
    ∀ hdle, hdle ∈ state.deleted ↔ hdle < state.nextHandle ∧ state.handles hdle = none
  fresh : ∀ hdle, state.nextHandle ≤ hdle → state.handles hdle = none

structure Torn (created : HandleId) (after : State R L) (files : List (Option File)) : Prop where
  closed : ∀ fd, after.files fd = none
  opened : ∀ file ∈ files, file ≠ none
  gone : ∀ hdle, after.handles hdle = none
  once : after.deleted.Nodup
  all : ∀ hdle, hdle ∈ after.deleted ↔ hdle < created

omit [DecidableEq R] [Fintype R] [DecidableEq L] in
theorem Remains.next {key : Fd} {later : List Fd} {state : State R L}
    (remains : Remains state (key :: later)) (hdle : HandleId) (value : SocketHandle)
    (found : state.m_fd_set.lookup key = some hdle) (lives : state.handles hdle = some value)
    (same : value.fd = key) :
    Remains { state with
      files := Function.update state.files key none
      handles := Function.update state.handles hdle none
      deleted := hdle :: state.deleted } later := by
  obtain ⟨first, once⟩ := List.nodup_cons.mp remains.once
  have created : hdle < state.nextHandle := by
    by_contra fresh
    rw [remains.fresh hdle (Nat.not_lt.mp fresh)] at lives
    cases lives
  have undeleted : hdle ∉ state.deleted := by
    intro member
    rw [((remains.deleted.2 hdle).mp member).2] at lives
    cases lives
  -- The handle that goes is the only one under its descriptor, so the others stay.
  constructor
  case once => exact once
  case entry =>
    intro other member
    obtain ⟨held, old, entry, live, place, opened⟩ :=
      remains.entry other (List.mem_cons_of_mem _ member)
    have apart : other ≠ key := fun equal => first (equal ▸ member)
    have separate : held ≠ hdle := by
      rintro rfl
      rw [lives] at live
      cases live
      exact apart (place.symm.trans same)
    exact ⟨held, old, entry, by simpa [separate] using live, place, by simpa [apart] using opened⟩
  case live =>
    intro held old live
    have separate : held ≠ hdle := by
      rintro rfl
      simp at live
    obtain ⟨member, entry⟩ := remains.live held old (by simpa [separate] using live)
    refine ⟨(List.mem_cons.mp member).resolve_left ?_, entry⟩
    intro equal
    rw [equal, found] at entry
    cases entry
    exact separate rfl
  case file =>
    intro fd opened
    have apart : fd ≠ key := by
      rintro rfl
      simp at opened
    exact (List.mem_cons.mp (remains.file fd (by simpa [apart] using opened))).resolve_left apart
  case deleted =>
    refine ⟨List.nodup_cons.mpr ⟨undeleted, remains.deleted.1⟩, ?_⟩
    intro other
    by_cases equal : other = hdle
    · simp [equal, created]
    · simp [equal, remains.deleted.2]
  case fresh =>
    intro other beyond
    have separate : other ≠ hdle := by
      rintro rfl
      exact absurd created (Nat.not_lt.mpr beyond)
    simpa [separate] using remains.fresh other beyond

omit [DecidableEq R] [Fintype R] [DecidableEq L] in
theorem destroy_torn (keys : List Fd) (state : State R L) (remains : Remains state keys) :
    ∃ after files, destroy_loop state keys = some (after, files) ∧
      Torn state.nextHandle after files := by
  -- On the descriptors to come; `Remains` is what the loop keeps.
  induction keys generalizing state with
  | nil =>
      refine ⟨state, [], rfl, ?_⟩
      have gone (hdle : HandleId) : state.handles hdle = none := by
        by_contra lives
        obtain ⟨value, lives⟩ := Option.ne_none_iff_exists'.mp lives
        cases (remains.live hdle value lives).1
      constructor
      case closed =>
        intro fd
        by_contra opened
        cases remains.file fd opened
      case opened => simp
      case gone => exact gone
      case once => exact remains.deleted.1
      case all =>
        intro hdle
        rw [remains.deleted.2, and_iff_left (gone hdle)]
  | cons key later ih =>
      obtain ⟨hdle, value, found, lives, same, opened⟩ := remains.entry _ (List.mem_cons_self ..)
      obtain ⟨after, files, ran, torn⟩ := ih _ (remains.next hdle value found lives same)
      refine ⟨after, state.files key :: files, ?_, ?_⟩
      · simp only [destroy_loop, found, lives, close, same, ran, Option.map_some]
      · refine ⟨torn.closed, ?_, torn.gone, torn.once, torn.all⟩
        intro file member
        rcases List.mem_cons.mp member with rfl | member
        · exact opened
        · exact torn.opened file member

/-- Once the receivers have ended, what is open is the server's own and the table's. -/
theorem ended_remains (state : State R L) (reached : Running config state)
    (ended : ∀ receiver, state.receivers receiver = .exited) :
    Remains { state with
      files := Function.update (Function.update state.files config.pipe_read none)
        config.listen none } (state.m_fd_set.keys.mergeSort (· ≤ ·)) := by
  obtain ⟨table, linked⟩ := reachable_linked state reached
  have attended := reachable_attended state reached
  have buried := reachable_buried state reached
  have created := reachable_created state reached
  have entered (fd : Fd) : fd ∈ state.m_fd_set.keys.mergeSort (· ≤ ·) ↔
      ∃ hdle, (table fd).handle = some hdle := by
    rw [List.mem_mergeSort, ← AList.mem_keys, ← AList.lookup_isSome, linked.mapped,
      Option.isSome_iff_exists]
  have listen := (linked.listening config.listen).mpr rfl
  have pipe := (linked.waking config.pipe_read).mpr rfl
  constructor
  case once => exact (List.mergeSort_perm _ _).nodup_iff.mpr state.m_fd_set.keys_nodup
  case entry =>
    intro key member
    obtain ⟨hdle, stored⟩ := (entered key).mp member
    obtain ⟨value, live, same, _⟩ := linked.entry key hdle stored
    obtain ⟨conn, _, file⟩ := linked.connection hdle value live
    rw [same] at file
    have notListen : key ≠ config.listen := by
      rintro rfl
      rw [listen] at stored
      cases stored
    have notPipe : key ≠ config.pipe_read := by
      rintro rfl
      rw [pipe] at stored
      cases stored
    exact ⟨hdle, value, by rw [linked.mapped, stored], live, same, by
      simp [notListen, notPipe, file]⟩
  case live =>
    intro hdle value live
    have stored := linked.live hdle value live
    exact ⟨(entered value.fd).mpr ⟨hdle, stored⟩, by rw [linked.mapped, stored]⟩
  case file =>
    intro fd opened
    have notListen : fd ≠ config.listen := by
      rintro rfl
      simp at opened
    have notPipe : fd ≠ config.pipe_read := by
      rintro rfl
      simp [notListen] at opened
    have file : state.files fd ≠ none := by simpa [notListen, notPipe] using opened
    rw [entered]
    rw [linked.file] at file
    cases stage : table fd with
    | listening => exact absurd ((linked.listening fd).mp stage) notListen
    | waking => exact absurd ((linked.waking fd).mp stage) notPipe
    | free =>
        rw [stage] at file
        exact absurd rfl file
    | accepted receiver conn =>
        -- A connection that is not in the table yet is in the hands of a thread.
        have watch := linked.interest fd
        rw [stage] at watch
        rcases attended fd conn (by rw [linked.file, stage]; rfl) with armed | carried | broken
        · rw [watch] at armed
          cases armed
        · obtain ⟨holder, carries⟩ := carried
          rw [ended holder] at carries
          cases carries
        · obtain ⟨hdle, value, live, same, _⟩ := broken
          have stored := linked.live hdle value live
          rw [same, stage] at stored
          cases stored
    | armed hdle conn | held receiver hdle conn | flagged hdle conn => exact ⟨hdle, rfl⟩
  case deleted =>
    refine ⟨buried.once, ?_⟩
    intro hdle
    constructor
    · intro member
      exact (buried.gone hdle member).symm
    · rintro ⟨below, absent⟩
      exact created hdle below absent
  case fresh => exact linked.freshHandle

/-- The destructor deletes what has not been deleted and closes what is open. -/
theorem destroy_all (state : State R L) (reached : Running config state)
    (ended : ∀ receiver, state.receivers receiver = .exited) :
    ∃ after files, destroy config state = some (after, files) ∧
      Torn state.nextHandle after files := by
  obtain ⟨table, linked⟩ := reachable_linked state reached
  have apart : config.listen ≠ config.pipe_read := config.distinct
  have listen := linked.file config.listen
  have pipe := linked.file config.pipe_read
  rw [(linked.listening config.listen).mpr rfl] at listen
  rw [(linked.waking config.pipe_read).mpr rfl] at pipe
  obtain ⟨after, files, ran, torn⟩ := destroy_torn _ _ (ended_remains state reached ended)
  refine ⟨after, state.files config.pipe_read :: state.files config.listen :: files, ?_,
    torn.closed, ?_, torn.gone, torn.once, torn.all⟩
  · simp only [destroy, close, ran, Option.map_some, Function.update_of_ne apart]
  · intro file member
    rcases List.mem_cons.mp member with rfl | member
    · rw [pipe]
      exact Option.some_ne_none _
    · rcases List.mem_cons.mp member with rfl | member
      · rw [listen]
        exact Option.some_ne_none _
      · exact torn.opened file member

end Runs

/-- A stop with a request in the list: its handle still counts a user. -/
theorem destroy_all_queued : ∃ state : State (Fin 1) (Fin 1),
    ((state.handles 0).map SocketHandle.ref = some 1 ∧ state.task_list ≠ []) ∧
      ∃ after files, destroy sample state = some (after, files) ∧
        Torn state.nextHandle after files := by
  obtain ⟨state, reached, shown⟩ := Transition.exec_reaches
    (.start rfl : Running sample (State.initial sample (Fin 1) (Fin 1)))
    (connect 0 5 ++ request 0 5 0 ++ [.stop, .lock 0])
    (fun state => decide (((state.handles 0).map SocketHandle.ref = some 1 ∧
      state.task_list ≠ []) ∧ state.receivers 0 = .exited))
    (by decide +kernel)
  obtain ⟨queued, exited⟩ := of_decide_eq_true shown
  refine ⟨state, queued, destroy_all state reached ?_⟩
  intro receiver
  rw [Subsingleton.elim receiver 0, exited]

end AsrServer.Teardown
