import AsrServer.Fragmentation
import AsrServer.ReadBounds
import AsrServer.Receivers

/-!
Requests that stay in `_read_buf`. `recv_request` takes one request and gives the
descriptor back to epoll, which reports it again only for bytes in the kernel;
what an earlier read has brought along is out of epoll's sight. Between a body
read and the next header read nothing changes a connection's buffer, so the
bytes behind each request decide what an idle connection holds.
-/

namespace AsrServer.Stranded

open Bytes ReadPath Framing Server Ownership References Lifetime Receivers

variable {R L : Type}

/-- Taking messages off the front of `bytes` comes to a complete accepted request. -/
def HoldsAccepted (info : List Byte → Option Int) (bytes : List Byte) : Prop :=
  ∃ count, ∃ shown ∈ Fragmentation.frames info count bytes, ∃ http request,
    shown.1 = .submitted http request

/-- A connection that is registered, has no bytes in the kernel and no receiver at
work has no request in its buffer. -/
def NoneStranded (info : List Byte → Option Int) (state : State R L) : Prop :=
  ∀ fd conn hdle value, state.files fd = some (.conn conn) → state.interest fd = true →
    state.unread conn = [] → (∀ receiver, ¬ Inside fd (state.receivers receiver)) →
    state.m_fd_set.lookup fd = some hdle → state.handles hdle = some value →
    ¬ HoldsAccepted info value.read_buf

def behind (info : List Byte → Option Int) (http buffer : List Byte) : Option (List Byte) :=
  match verdict info http with
  | none => some buffer
  | some length => substr buffer length

/-- The step reads a body, the kernel has nothing for its connection, and `rest` is
in the buffer behind the message. -/
inductive LeavesBehind (config : Config) (state : State R L) : Action R L → List Byte → Prop where
  | readBody {receiver plan fd hdle http conn value rest}
      (place : state.receivers receiver = .parsed fd hdle http conn)
      (live : state.handles hdle = some value) (drained : state.unread conn = [])
      (left : behind config.info http value.read_buf = some rest) :
      LeavesBehind config state (.readBody receiver plan) rest

def Unbatched (config : Config) (state : State R L) (action : Action R L) : Prop :=
  ∀ rest, LeavesBehind config state action rest → ¬ HoldsAccepted config.info rest

/-- The thread has the connection and has not yet read a whole message, or has
failed to. -/
def Reading (fd : Fd) : Receiver → Prop
  | .dispatched own | .receiving own _ | .parsed own _ _ _ | .failing own _ => own = fd
  | _ => False

structure Rests (state : State R L) (hdle : HandleId) (value : SocketHandle) (conn : ConnId) :
    Prop where
  live : state.handles hdle = some value
  sound : value.failed = false
  file : state.files value.fd = some (.conn conn)
  alone : ∀ receiver, ¬ Reading value.fd (state.receivers receiver)
  drained : state.unread conn = []

def Settled (info : List Byte → Option Int) (state : State R L) : Prop :=
  ∀ hdle value conn, Rests state hdle value conn → ¬ HoldsAccepted info value.read_buf

theorem missing_holds (info : List Byte → Option Int) (bytes : List Byte)
    (missing : bytes.dropInfix? crlfcrlf = none) : ¬ HoldsAccepted info bytes := by
  rintro ⟨count, shown, member, http, request, submitted⟩
  have ends : frame info bytes = (.disconnect none, bytes) := by
    simp [frame, nextHeader, cut_missing bytes missing]
  cases count with
  | zero => cases member
  | succ count =>
      simp only [Fragmentation.frames, ends, Outcome.rearmed, Bool.false_eq_true, ↓reduceIte,
        List.mem_singleton] at member
      rw [member] at submitted
      cases submitted

/-- A body read empties the buffer, or takes the body off its front and reads
nothing. -/
theorem readn_left (conn after : Conn) (length count : Int) (request : List Byte)
    (ran : readn_timeout conn length = (.ret count request, after)) :
    after.read_buf = [] ∨
      (after.unread = conn.unread ∧ substr conn.read_buf length = some after.read_buf) := by
  unfold readn_timeout at ran
  dsimp only at ran
  split at ran
  · split at ran
    · rename_i rest taken
      cases ran
      exact Or.inr ⟨rfl, taken⟩
    · cases ran
  · left
    have empty := ReadBounds.body_loop_buffer conn.plan length conn.read_buf
      (toInt (length - conn.read_buf.length)) conn.unread
    rw [ran] at empty
    exact empty

section Step
variable {config : Config} {table : Fd → Stage R} {state : State R L}

def Rested (state : State R L) (hdle : HandleId) (value : SocketHandle) (conn : ConnId) : Prop :=
  ∃ old, Rests state hdle old conn ∧ old.read_buf = value.read_buf

theorem still_rested (after : State R L) (hdle : HandleId) (old value : SocketHandle)
    (conn : ConnId) (rests : Rests after hdle value conn)
    (held : state.handles hdle = some old)
    (same : (old.fd, old.flag, old.read_buf) = (value.fd, value.flag, value.read_buf))
    (file : after.files value.fd = state.files value.fd)
    (alone : ∀ receiver, Reading value.fd (state.receivers receiver) →
      Reading value.fd (after.receivers receiver))
    (unread : after.unread conn = [] → state.unread conn = []) : Rested state hdle value conn := by
  simp only [Prod.mk.injEq] at same
  obtain ⟨fd, flag, buffer⟩ := same
  refine ⟨old, ⟨held, ?_, ?_, ?_, unread rests.drained⟩, buffer⟩
  · unfold SocketHandle.failed
    rw [flag]
    exact rests.sound
  · rw [fd, ← file]
    exact rests.file
  · intro receiver reading
    exact rests.alone receiver (alone receiver (fd ▸ reading))

theorem reading_at [DecidableEq R] (fd : Fd) (acting : R) (place : Receiver)
    (keeps : Reading fd (state.receivers acting) → Reading fd place) (receiver : R)
    (reading : Reading fd (state.receivers receiver)) :
    Reading fd (Function.update state.receivers acting place receiver) := by
  by_cases here : receiver = acting
  · rw [here, Function.update_self]
    exact keeps (here ▸ reading)
  · rwa [Function.update_of_ne here]

theorem put_rested [DecidableEq R] (held hdle : HandleId) (old next value : SocketHandle)
    (conn : ConnId) (acting : R) (place : Receiver)
    (rests : Rests ((state.put held next).at acting place) hdle value conn)
    (found : state.handles held = some old)
    (same : (old.fd, old.flag, old.read_buf) = (next.fd, next.flag, next.read_buf))
    (keeps : Reading value.fd (state.receivers acting) → Reading value.fd place) :
    Rested state hdle value conn := by
  have live := rests.live
  simp only [State.at, State.put] at live
  by_cases here : hdle = held
  · subst here
    simp only [Function.update_self, Option.some.injEq] at live
    subst live
    exact still_rested _ hdle old next conn rests found same rfl
      (reading_at next.fd acting place keeps) id
  · simp only [Function.update_of_ne here] at live
    exact still_rested _ hdle value value conn rests live rfl rfl
      (reading_at value.fd acting place keeps) id

/-- A read loop changes nothing for other connections, and its own has a reader
where it goes on. -/
theorem after_rested [DecidableEq R] (linked : Linked config table state) (held hdle : HandleId)
    (old value : SocketHandle) (id conn : ConnId) (left : Conn) (acting : R) (fd : Fd)
    (place : Receiver) (here : old.fd = fd) (found : state.handles held = some old)
    (file : state.files old.fd = some (.conn id))
    (rests : Rests ((state.after held old id left).at acting place) hdle value conn)
    (was : ∀ own, Reading own (state.receivers acting) → own = fd) :
    (hdle = held ∧ value = { old with read_buf := left.read_buf } ∧ conn = id) ∨
      Rested state hdle value conn := by
  have live := rests.live
  have there := rests.file
  simp only [State.at, State.put, State.after] at live there
  by_cases same : hdle = held
  · subst same
    simp only [Function.update_self, Option.some.injEq] at live
    subst live
    rw [file] at there
    cases there
    exact Or.inl ⟨rfl, rfl, rfl⟩
  · right
    simp only [Function.update_of_ne same] at live
    have apart : value.fd ≠ old.fd := fun fd => same (linked.same _ _ _ _ live found fd)
    have other : conn ≠ id := by
      intro shared
      subst shared
      obtain ⟨one, mine, first⟩ := linked.connection hdle value live
      obtain ⟨two, his, second⟩ := linked.connection held old found
      rw [there] at first
      rw [file] at second
      cases first
      cases second
      exact apart (linked.apart _ _ _ mine his)
    refine still_rested _ hdle value value conn rests live rfl rfl
      (reading_at value.fd acting place ?_) ?_
    · intro reading
      exact absurd ((was _ reading).trans here.symm) apart
    · intro drained
      simpa only [State.at, State.after, Function.update_of_ne other] using drained

theorem reader_rested [DecidableEq R] (linked : Linked config table state) (held hdle : HandleId)
    (old value : SocketHandle) (id conn : ConnId) (left : Conn) (acting : R) (fd : Fd)
    (place : Receiver) (origin : ConnId) (stage : table fd = .held acting held origin)
    (found : state.handles held = some old) (file : state.files old.fd = some (.conn id))
    (rests : Rests ((state.after held old id left).at acting place) hdle value conn)
    (was : ∀ own, Reading own (state.receivers acting) → own = fd) (reads : Reading fd place) :
    Rested state hdle value conn := by
  obtain ⟨here, _, _⟩ := held_value linked acting fd held origin old stage found
  rcases after_rested linked held hdle old value id conn left acting fd place here found file
    rests was with ⟨_, shape, _⟩ | rested
  · refine absurd ?_ (rests.alone acting)
    rw [shape, here]
    simpa only [State.at, Function.update_self] using reads
  · exact rested

theorem released_rested (linked : Linked config table state) (held hdle : HandleId)
    (old value : SocketHandle) (conn : ConnId) (next after : State R L)
    (found : state.handles held = some old) (released : Released state held old next)
    (rests : Rests after hdle value conn)
    (same : (after.handles, after.files, after.unread) = (next.handles, next.files, next.unread))
    (alone : ∀ receiver, Reading value.fd (state.receivers receiver) →
      Reading value.fd (after.receivers receiver)) : Rested state hdle value conn := by
  simp only [Prod.mk.injEq] at same
  obtain ⟨handles, files, unread⟩ := same
  have live := rests.live
  rw [handles] at live
  cases released with
  | kept still =>
      simp only [State.put] at live
      by_cases here : hdle = held
      · subst here
        simp only [Function.update_self, Option.some.injEq] at live
        subst live
        exact still_rested after hdle old _ conn rests found rfl (by rw [files]; rfl) alone
          (by rw [unread]; exact id)
      · simp only [Function.update_of_ne here] at live
        exact still_rested after hdle value value conn rests live rfl (by rw [files]; rfl) alone
          (by rw [unread]; exact id)
  | closed last failed =>
      have elsewhere : hdle ≠ held := by
        intro here
        simp [here] at live
      simp only [Function.update_of_ne elsewhere] at live
      have apart : value.fd ≠ old.fd :=
        fun fd => elsewhere (linked.same _ _ _ _ live found fd)
      refine still_rested after hdle value value conn rests live rfl ?_ alone
        (by rw [unread]; exact id)
      rw [files]
      exact Function.update_of_ne apart ..

/-- A thread that was no reader moves, and nothing else that counts here does. -/
theorem thread_rested [DecidableEq R] (acting : R) (old place : Receiver) (hdle : HandleId)
    (value : SocketHandle) (conn : ConnId) (here : state.receivers acting = old)
    (idle : ¬ Reading value.fd old) (next : State R L) (rests : Rests next hdle value conn)
    (receivers : next.receivers = Function.update state.receivers acting place)
    (same : (next.handles, next.files, next.unread) =
      (state.handles, state.files, state.unread)) : Rested state hdle value conn := by
  simp only [Prod.mk.injEq] at same
  obtain ⟨handles, files, unread⟩ := same
  refine still_rested next hdle value value conn rests (handles ▸ rests.live) rfl
    (by rw [files]) ?_ (by rw [unread]; exact id)
  rw [receivers]
  exact reading_at value.fd acting place (fun reading => absurd (here ▸ reading) idle)

theorem unmoved_rested (hdle : HandleId) (value : SocketHandle) (conn : ConnId)
    (next : State R L) (rests : Rests next hdle value conn)
    (same : (next.receivers, next.handles, next.files, next.unread) =
      (state.receivers, state.handles, state.files, state.unread)) :
    Rested state hdle value conn := by
  simp only [Prod.mk.injEq] at same
  obtain ⟨receivers, handles, files, unread⟩ := same
  exact still_rested next hdle value value conn rests (handles ▸ rests.live) rfl
    (by rw [files]) (by rw [receivers]; exact fun _ => id) (by rw [unread]; exact id)

/-- A new handle comes with an empty buffer. -/
theorem created_rested [DecidableEq R] [DecidableEq L] (linked : Linked config table state)
    (receiver : R) (fd : Fd) (hdle : HandleId) (value : SocketHandle) (conn : ConnId)
    (place : state.receivers receiver = .counted fd)
    (rests : Rests ((create_handle state fd LISTEN_PORT_1).at receiver (.inserted fd)) hdle value
      conn) : Rested state hdle value conn ∨ value.read_buf = [] := by
  rw [linked.created receiver fd place] at rests
  have live := rests.live
  simp only [State.at, State.put] at live
  by_cases new : hdle = state.nextHandle
  · subst new
    simp only [Function.update_self, Option.some.injEq] at live
    subst live
    exact Or.inr rfl
  · simp only [Function.update_of_ne new] at live
    left
    refine still_rested _ hdle value value conn rests live rfl rfl ?_ (fun drained => drained)
    exact reading_at value.fd receiver (.inserted fd)
      (fun reading => by simp [place, Reading] at reading)

/-- A body that was not all buffered has emptied the buffer; one that was leaves the
kernel as it is. -/
theorem body_rested [DecidableEq R] (linked : Linked config table state) (receiver : R)
    (plan : List Nat) (fd : Fd) (held hdle : HandleId) (http request : List Byte)
    (origin id conn : ConnId) (old value : SocketHandle) (length count : Int) (left : Conn)
    (next : Receiver) (place : state.receivers receiver = .parsed fd held http origin)
    (accepted : verdict config.info http = some length) (live : state.handles held = some old)
    (file : state.files old.fd = some (.conn id))
    (ran : readn_timeout ⟨old.read_buf, state.unread id, plan⟩ length =
      (.ret count request, left))
    (rests : Rests ((state.after held old id left).at receiver next) hdle value conn) :
    Rested state hdle value conn ∨ value.read_buf = [] ∨
      LeavesBehind config state (.readBody receiver plan) value.read_buf := by
  have stage : table fd = .held receiver held origin := (place ▸ linked.owners receiver :)
  obtain ⟨here, _, _⟩ := held_value linked receiver fd held origin old stage live
  rcases after_rested linked held hdle old value id conn left receiver fd _ here live file
    rests (by rw [place]; exact fun _ => Eq.symm) with ⟨same, shape, connection⟩ | rested
  · have buffer : value.read_buf = left.read_buf := by rw [shape]
    rcases readn_left _ _ _ _ _ ran with empty | ⟨unread, taken⟩
    · exact Or.inr (Or.inl (buffer.trans empty))
    · have drained := rests.drained
      simp only [State.at, State.after, connection, Function.update_self, unread] at drained
      refine Or.inr (Or.inr (.readBody place live ?_ ?_))
      · rw [conn_of_held linked receiver fd held origin id old stage live file]
        exact drained
      · rw [buffer, behind, accepted]
        exact taken
  · exact Or.inl rested

/-- A message that is rejected ends with its header: the buffer is what stands behind. -/
theorem rejected_rested [DecidableEq R] (linked : Linked config table state) (receiver : R)
    (plan : List Nat) (fd : Fd) (held hdle : HandleId) (http : List Byte) (origin conn : ConnId)
    (value : SocketHandle) (next : Receiver)
    (place : state.receivers receiver = .parsed fd held http origin)
    (rejected : verdict config.info http = none)
    (rests : Rests (state.at receiver next) hdle value conn) :
    Rested state hdle value conn ∨
      LeavesBehind config state (.readBody receiver plan) value.read_buf := by
  have stage : table fd = .held receiver held origin := (place ▸ linked.owners receiver :)
  by_cases here : value.fd = fd
  · obtain ⟨old, live, same, _⟩ := linked.entry fd held (by rw [stage]; rfl)
    have both := linked.same hdle held value old rests.live live (here.trans same.symm)
    subst both
    have file := rests.file
    change state.files value.fd = _ at file
    rw [here, linked.file, stage] at file
    cases file
    refine Or.inr (.readBody place rests.live rests.drained ?_)
    rw [behind, rejected]
  · exact Or.inl (thread_rested receiver _ next hdle value conn place
      (fun own => here own.symm) _ rests rfl rfl)

/-- The handle that is flagged rests no more. -/
theorem flagged_rested [DecidableEq R] (linked : Linked config table state) (receiver : R)
    (fd : Fd) (held hdle : HandleId) (conn : ConnId) (old value : SocketHandle)
    (place : state.receivers receiver = .failing fd held) (live : state.handles held = some old)
    (rests : Rests ((state.put held { old with flag := old.flag ||| ERROR_SOCKET }).at receiver
      (.flagged fd held)) hdle value conn) : Rested state hdle value conn := by
  obtain ⟨own, stage⟩ := place ▸ linked.owners receiver
  obtain ⟨here, _, _⟩ := held_value linked receiver fd held own old stage live
  have there := rests.live
  simp only [State.at, State.put] at there
  by_cases same : hdle = held
  · subst same
    simp only [Function.update_self, Option.some.injEq] at there
    have sound := rests.sound
    rw [← there, failed_flag] at sound
    cases sound
  · simp only [Function.update_of_ne same] at there
    refine still_rested _ hdle value value conn rests there rfl rfl ?_ id
    refine reading_at value.fd receiver (.flagged fd held) ?_
    rw [place]
    intro reading
    exact absurd (linked.same _ _ _ _ there live (reading.symm.trans here.symm)) same

/-- A connection that rests after a step has rested before it with the same buffer,
or is a new one, or has the bytes left behind the message that was read. -/
theorem moved_rested [DecidableEq R] [DecidableEq L] (linked : Linked config table state)
    (action : Action R L) (after : State R L) (moved : Moved config state action after)
    (hdle : HandleId) (value : SocketHandle) (conn : ConnId) (rests : Rests after hdle value conn) :
    Rested state hdle value conn ∨ value.read_buf = [] ∨
      LeavesBehind config state action value.read_buf := by
  cases moved with
  | exit place | lock place | waitFailed _ _ place | waitListen place | waitPipe place
  | waitClient place | acceptNone place | count place | submit place | submitFlushed place =>
      exact Or.inl (thread_rested _ _ _ hdle value conn place id _ rests rfl rfl)
  | get | getNull | send | stop | flush =>
      exact Or.inl (unmoved_rested hdle value conn _ rests rfl)
  | @acceptSome receiver fd place free =>
      left
      obtain ⟨_, _, file⟩ := linked.connection hdle value rests.live
      have apart : value.fd ≠ fd := by
        intro same
        rw [same, free] at file
        cases file
      refine still_rested _ hdle value value conn rests rests.live rfl
        (Function.update_of_ne apart ..) ?_ id
      exact reading_at value.fd receiver (.accepted fd)
        (fun reading => by simp [place, Reading] at reading)
  | @create receiver fd place =>
      rcases created_rested linked receiver fd hdle value conn place rests with rested | empty
      · exact Or.inl rested
      · exact Or.inr (Or.inl empty)
  | add place =>
      refine Or.inl (thread_rested _ _ .accepting hdle value conn place id _ rests ?_ ?_) <;>
        rw [add_input_fd_eq] <;> rfl
  | rearmSubmitted place | rearmRejected place =>
      refine Or.inl (thread_rested _ _ .idle hdle value conn place id _ rests ?_ ?_) <;>
        rw [add_input_fd_eq] <;> rfl
  | acquire place found live =>
      refine Or.inl (put_rested _ hdle _ _ value conn _ _ rests live rfl ?_)
      rw [place]
      exact id
  | headerComplete place live file ran | headerError place live file ran =>
      obtain ⟨own, stage⟩ := place ▸ linked.owners _
      exact Or.inl (reader_rested linked _ hdle _ value _ conn _ _ _ _ own stage live file rests
        (by rw [place]; exact fun _ => Eq.symm) rfl)
  | bodyShort place accepted live file ran | bodyComplete place accepted live file ran =>
      exact body_rested linked _ _ _ _ hdle _ _ _ _ conn _ value _ _ _ _ place accepted live file
        ran rests
  | bodyRejected place rejected =>
      rcases rejected_rested linked _ _ _ _ hdle _ _ conn value _ place rejected rests with
        rested | leaves
      · exact Or.inl rested
      · exact Or.inr (Or.inr leaves)
  | flag place live => exact Or.inl (flagged_rested linked _ _ _ hdle conn _ value place live rests)
  | @drop receiver fd held old next place live released =>
      refine Or.inl (released_rested linked held hdle old value conn next _ live released rests
        rfl ?_)
      have same : next.receivers = state.receivers := by cases released <;> rfl
      simp only [State.at, same]
      exact reading_at value.fd receiver .idle
        (fun reading => by simp [place, Reading] at reading)
  | @release loader worker old next place live released =>
      refine Or.inl (released_rested linked _ hdle old value conn next _ live released rests
        rfl ?_)
      have same : next.receivers = state.receivers := by cases released <;> rfl
      simp only [State.loading, same]
      exact fun _ => id
  | @arrive other bytes =>
      refine Or.inl (still_rested _ hdle value value conn rests rests.live rfl rfl
        (fun _ => id) ?_)
      by_cases same : conn = other
      · subst same
        simp only [Function.update_self, List.append_eq_nil_iff]
        exact And.left
      · simp only [Function.update_of_ne same]
        exact id

end Step

section Runs
variable [DecidableEq R] [Fintype R] [DecidableEq L] {config : Config}

/-- The runs in which no read of a message has brought along a further request
after which the kernel has nothing. -/
abbrev RunningUnbatched (config : Config) (state : State R L) : Prop :=
  Transition.ReachableWhile (step config) (· = State.initial config R L) (Unbatched config) state

theorem reachable_settled (state : State R L) (reached : RunningUnbatched config state) :
    Settled config.info state := by
  refine reached.invariant (Settled config.info) ?_ ?_
  · intro state start hdle value conn rests
    subst start
    cases rests.live
  · intro before action after earlier unbatched settled ran hdle value conn rests
    obtain ⟨table, linked⟩ := reachable_linked before earlier.reachable
    rcases moved_rested linked action after (step_moved config before after action ran) hdle value
      conn rests with ⟨old, rested, buffer⟩ | empty | left
    · rw [← buffer]
      exact settled hdle old conn rested
    · rw [empty]
      exact missing_holds config.info [] (by decide)
    · exact unbatched _ left

/-- In such a run no request is stranded. -/
theorem none_stranded (state : State R L) (reached : RunningUnbatched config state) :
    NoneStranded config.info state := by
  obtain ⟨table, linked⟩ := reachable_linked state reached.reachable
  intro fd conn hdle value file armed drained idle entry live
  rw [linked.mapped] at entry
  obtain ⟨found, here, same, core⟩ := linked.entry fd hdle entry
  rw [live] at here
  cases here
  subst same
  refine reachable_settled state reached hdle value conn ⟨live, ?_, file, ?_, drained⟩
  -- What epoll watches for a client is at stage `armed`, whose handle is not flagged.
  · rw [linked.interest] at armed
    cases stage : table value.fd <;> rw [stage] at armed core entry <;> cases entry <;>
      simp_all [Stage.place]
  · intro receiver reading
    apply idle receiver
    cases place : state.receivers receiver <;> rw [place] at reading <;>
      first
        | exact reading
        | cases reading

end Runs

def unended (config : Config) (state : State R L) : Action R L → Bool
  | .readBody receiver _ =>
      match state.receivers receiver with
      | .parsed _ hdle http _ =>
          (((state.handles hdle).bind fun value => behind config.info http value.read_buf).bind
            fun rest => rest.dropInfix? crlfcrlf).isNone
      | _ => true
  | _ => true

theorem unended_unbatched (config : Config) (state : State R L) (action : Action R L)
    (checked : unended config state action = true) : Unbatched config state action := by
  rintro rest ⟨place, live, _, left⟩
  simp only [unended, place, live, left, Option.bind_some, Option.isNone_iff_eq_none] at checked
  exact missing_holds config.info rest checked

theorem none_stranded_partial : ∃ state : State (Fin 1) (Fin 1),
    (state.interest 5 = true ∧ state.unread 0 = [] ∧
      state.handles 0 = some ⟨5, 1, LISTEN_PORT_1, text "POST /request"⟩) ∧
      NoneStranded sample.info state := by
  obtain ⟨state, reached, shown⟩ := Transition.execWhile_reaches (unended sample)
    (fun before action _ => unended_unbatched sample before action)
    (.start rfl : RunningUnbatched sample (State.initial sample (Fin 1) (Fin 1)))
    (connect 0 5 ++ .arrive 0 (text "POST /request HTTP/1.1\r\nContent-Length:0\r\n\r\n") ::
      .arrive 0 (text "POST /request") :: event 0 5 ++ [.acquire 0, .readHeader 0 [512],
      .readBody 0 [], .submit 0, .rearm 0])
    (fun state => decide (state.interest 5 = true ∧ state.unread 0 = [] ∧
      state.handles 0 = some ⟨5, 1, LISTEN_PORT_1, text "POST /request"⟩))
    (by decide +kernel)
  exact ⟨state, of_decide_eq_true shown, none_stranded state reached⟩

/-- Two requests in one segment: the first is submitted and the connection given back
to epoll, the second stays in `_read_buf`. -/
theorem batched_request_stranded :
    ∃ state : State (Fin 1) (Fin 1), Running sample state ∧ ¬ NoneStranded sample.info state := by
  obtain ⟨state, reached, shown⟩ := Transition.exec_reaches
    (.start rfl : Running sample (State.initial sample (Fin 1) (Fin 1)))
    (connect 0 5 ++
      .arrive 0 (text "POST /request HTTP/1.1\r\nContent-Length:0\r\n\r\n") :: request 0 5 0)
    (fun state => decide (state.files 5 = some (.conn 0) ∧ state.interest 5 = true ∧
      state.unread 0 = [] ∧ state.receivers 0 = .idle ∧ state.m_fd_set.lookup 5 = some 0 ∧
      state.handles 0 = some ⟨5, 1, LISTEN_PORT_1,
        text "POST /request HTTP/1.1\r\nContent-Length:0\r\n\r\n"⟩))
    (by decide +kernel)
  obtain ⟨file, armed, drained, idle, entry, live⟩ := of_decide_eq_true shown
  refine ⟨state, reached, ?_⟩
  intro stranded
  refine stranded 5 0 0 _ file armed drained ?_ entry live ?_
  · intro receiver
    rw [Subsingleton.elim receiver 0, idle]
    exact id
  · refine ⟨1, _, List.mem_cons_self .., text "POST /request HTTP/1.1\r\nContent-Length:0", [], ?_⟩
    decide +kernel

end AsrServer.Stranded
