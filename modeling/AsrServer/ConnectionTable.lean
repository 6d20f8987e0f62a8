import AsrServer.Ownership

/-!
The connection table. `accept`, the count, `m_fd_set` and epoll are changed in
sections under three different locks; that they agree in between is what the
stages of the descriptors say. Only the count is an invariant of its own.
-/

namespace AsrServer.ConnectionTable

open Bytes Server Ownership

variable {R L : Type} [DecidableEq R] [Fintype R] [DecidableEq L]

def inserting : Receiver → Nat
  | .counted _ => 1
  | _ => 0

def insertions (state : State R L) : Nat := ∑ receiver, inserting (state.receivers receiver)

/-- `_now_connections` counts the table and the insertions under way. -/
def Counted (state : State R L) : Prop :=
  state.now_connections = state.m_fd_set.keys.length + insertions state

/-- What the connection table promises to the rest of the server. -/
structure TableHolds (state : State R L) : Prop where
  live : ∀ fd hdle, state.m_fd_set.lookup fd = some hdle →
    ∃ value, state.handles hdle = some value ∧ value.fd = fd
  distinct : ∀ fd other hdle, state.m_fd_set.lookup fd = some hdle →
    state.m_fd_set.lookup other = some hdle → fd = other
  counted : Counted state
  absent : ∀ receiver fd, state.receivers receiver = .counted fd → fd ∉ state.m_fd_set
  found : ∀ receiver fd, state.receivers receiver = .dispatched fd →
    ∃ hdle, state.m_fd_set.lookup fd = some hdle

omit [DecidableEq L] in
theorem insertions_at (state after : State R L) (receiver : R) (old place : Receiver)
    (here : state.receivers receiver = old)
    (receivers : after.receivers = Function.update state.receivers receiver place) :
    insertions after + inserting old = insertions state + inserting place := by
  unfold insertions
  rw [receivers, ← here]
  exact Transition.sum_update inserting state.receivers receiver place

omit [DecidableEq L] in
theorem recounted (state after : State R L) (receiver : R) (old place : Receiver)
    (counted : Counted state) (here : state.receivers receiver = old)
    (receivers : after.receivers = Function.update state.receivers receiver place)
    (balance : after.now_connections + state.m_fd_set.keys.length + inserting old =
      state.now_connections + after.m_fd_set.keys.length + inserting place) : Counted after := by
  have moved := insertions_at state after receiver old place here receivers
  unfold Counted at *
  omega

omit [DecidableEq L] in
theorem thread_counted (state after : State R L) (receiver : R) (old place : Receiver)
    (counted : Counted state) (here : state.receivers receiver = old)
    (receivers : after.receivers = Function.update state.receivers receiver place)
    (weight : inserting place = inserting old)
    (same : (after.now_connections, after.m_fd_set) = (state.now_connections, state.m_fd_set)) :
    Counted after := by
  simp only [Prod.mk.injEq] at same
  refine recounted state after receiver old place counted here receivers ?_
  rw [same.1, same.2, weight]

omit [DecidableEq R] [DecidableEq L] in
theorem still_counted (state after : State R L) (counted : Counted state)
    (same : (after.receivers, after.now_connections, after.m_fd_set) =
      (state.receivers, state.now_connections, state.m_fd_set)) : Counted after := by
  simp only [Prod.mk.injEq] at same
  obtain ⟨receivers, now, table⟩ := same
  unfold Counted insertions
  rw [receivers, now, table]
  exact counted

omit [DecidableEq R] [DecidableEq L] in
theorem released_counted (config : Config) (table : Fd → Stage R) (state next : State R L)
    (linked : Linked config table state) (counted : Counted state) (hdle : HandleId)
    (value : SocketHandle) (live : state.handles hdle = some value)
    (released : Released state hdle value next) : Counted next := by
  cases released with
  | kept still => exact counted
  | closed last failed =>
      have stored := linked.mapped value.fd
      rw [linked.live hdle value live] at stored
      have member : value.fd ∈ state.m_fd_set.keys := by
        rw [← AList.mem_keys, ← AList.lookup_isSome, stored]
        rfl
      have size := List.length_erase_of_mem member
      have positive := List.length_pos_of_mem member
      unfold Counted at counted ⊢
      simp only [AList.keys_erase, size, del_input_fd]
      change state.now_connections - 1 = _ + (insertions state : Int)
      omega

theorem moved_counted (config : Config) (table : Fd → Stage R) (state after : State R L)
    (linked : Linked config table state) (counted : Counted state) (action : Action R L)
    (moved : Moved config state action after) : Counted after := by
  cases moved with
  | exit place | lock place | waitListen place | waitPipe place | waitClient place
  | acceptNone place | acceptSome place | acquire place | headerComplete place | headerError place
  | bodyRejected place | bodyComplete place | bodyShort place | submit place
  | submitFlushed place | flag place =>
      exact thread_counted state _ _ _ _ counted place rfl rfl rfl
  | get | getNull | send | arrive | stop | flush => exact still_counted state _ counted rfl
  | waitFailed next ends place fetches negative =>
      refine thread_counted state _ _ _ next counted place rfl ?_ rfl
      rcases ends with same | same <;> rw [same] <;> rfl
  | count place =>
      refine recounted state _ _ _ _ counted place rfl ?_
      simp only [State.at, inserting]
      omega
  | @create receiver fd place =>
      obtain ⟨conn, stage⟩ := place ▸ linked.owners receiver
      have missing : fd ∉ state.m_fd_set.keys := linked.absent receiver fd conn stage
      rw [linked.created receiver fd place]
      refine recounted state _ _ _ _ counted place rfl ?_
      simp only [State.at, State.put, inserting, AList.keys_insert,
        List.erase_of_not_mem missing, List.length_cons]
      omega
  | add place =>
      refine thread_counted state _ _ _ .accepting counted place ?_ rfl ?_ <;>
        rw [add_input_fd_eq] <;> rfl
  | rearmSubmitted place | rearmRejected place =>
      refine thread_counted state _ _ _ .idle counted place ?_ rfl ?_ <;>
        rw [add_input_fd_eq] <;> rfl
  | @drop receiver fd hdle value next place live released =>
      refine thread_counted next _ receiver (.flagged fd hdle) .idle
        (released_counted config table state next linked counted hdle value live released) ?_
        rfl rfl rfl
      cases released <;> exact place
  | release place live released =>
      exact still_counted _ _ (released_counted config table state _ linked counted _ _ live
        released) rfl

/-- The connection table holds in every state of every run. -/
theorem connection_table (config : Config) (state : State R L) (reached : Running config state) :
    TableHolds state := by
  obtain ⟨table, linked⟩ := reachable_linked state reached
  have counted : Counted state := by
    refine reached.invariant Counted ?_ ?_
    · intro state start
      subst start
      simp [Counted, insertions, inserting, State.initial]
    · intro before action after earlier _ counted moved
      obtain ⟨table, linked⟩ := reachable_linked before earlier
      exact moved_counted config table before after linked counted action
        (step_moved config before after action moved)
  refine ⟨?_, ?_, counted, ?_, ?_⟩
  · intro fd hdle entry
    rw [linked.mapped] at entry
    obtain ⟨value, live, same, _⟩ := linked.entry fd hdle entry
    exact ⟨value, live, same⟩
  · intro fd other hdle first second
    rw [linked.mapped] at first second
    obtain ⟨value, live, same, _⟩ := linked.entry fd hdle first
    obtain ⟨again, there, place, _⟩ := linked.entry other hdle second
    rw [live] at there
    cases there
    exact same.symm.trans place
  · intro receiver fd place
    obtain ⟨conn, stage⟩ := place ▸ linked.owners receiver
    exact linked.absent receiver fd conn stage
  · intro receiver fd place
    obtain ⟨hdle, conn, stage⟩ := place ▸ linked.owners receiver
    exact ⟨hdle, by rw [linked.mapped, stage]; rfl⟩

theorem connection_table_dispatched : ∃ state : State (Fin 2) (Fin 1),
    (state.receivers 0 = .dispatched 5 ∧ state.receivers 1 = .counted 6) ∧
      TableHolds state := by
  obtain ⟨state, reached, shown⟩ := Transition.exec_reaches
    (.start rfl : Running sample (State.initial sample (Fin 2) (Fin 1)))
    (connect 0 5 ++ .arrive 0 crlfcrlf :: event 0 5 ++ event 1 3 ++
      [.accept 1 (some 6), .count 1])
    (fun state => decide (state.receivers 0 = .dispatched 5 ∧ state.receivers 1 = .counted 6))
    (by decide +kernel)
  exact ⟨state, of_decide_eq_true shown, connection_table sample state reached⟩

end AsrServer.ConnectionTable
