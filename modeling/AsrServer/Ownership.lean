import AsrServer.RequestHeader
import AsrServer.Steps

/-!
Who a descriptor belongs to. The abstract model gives every descriptor one stage
and allows it six moves: accepted, entered in the table, armed, dispatched to a
receiver, flagged and closed. A stage names at most one thread, so two owners
cannot be said at all. The server refines this model: in each reachable state
the descriptor table, `m_fd_set`, the handles and the epoll set are what the
stages say, a thread stands where its stage has it, and a step makes at most one
move.
-/

namespace AsrServer.Ownership

open Bytes Server

/-- The stage of a descriptor. `held` is a thread between taking the descriptor out
of epoll and giving it back, `flagged` what it is from `ERROR_SOCKET` to `::close`. -/
inductive Stage (R : Type) where
  | listening
  | waking
  | free
  | accepted (receiver : R) (conn : ConnId)
  | armed (hdle : HandleId) (conn : ConnId)
  | held (receiver : R) (hdle : HandleId) (conn : ConnId)
  | flagged (hdle : HandleId) (conn : ConnId)

inductive Move {R : Type} : Stage R → Stage R → Prop where
  | accept (receiver conn) : Move .free (.accepted receiver conn)
  | enter (receiver hdle conn) : Move (.accepted receiver conn) (.held receiver hdle conn)
  | arm (receiver hdle conn) : Move (.held receiver hdle conn) (.armed hdle conn)
  | take (receiver hdle conn) : Move (.armed hdle conn) (.held receiver hdle conn)
  | fail (receiver hdle conn) : Move (.held receiver hdle conn) (.flagged hdle conn)
  | close (hdle conn) : Move (.flagged hdle conn) .free

def Stage.owner {R : Type} : Stage R → Option R
  | .accepted receiver _ | .held receiver _ _ => some receiver
  | _ => none

def Stage.handle {R : Type} : Stage R → Option HandleId
  | .armed hdle _ | .held _ hdle _ | .flagged hdle _ => some hdle
  | _ => none

def Stage.conn {R : Type} : Stage R → Option ConnId
  | .accepted _ conn | .armed _ conn | .held _ _ conn | .flagged _ conn => some conn
  | _ => none

/-- What the server's tables hold for one descriptor: its file, its entry in
`m_fd_set`, `get_fd()` and the error flag of the handle there, and whether epoll
watches it. -/
structure Place where
  file : Option File
  mapped : Option HandleId
  core : Option (Fd × Bool)
  armed : Bool
  deriving DecidableEq

def Stage.place {R : Type} (fd : Fd) : Stage R → Place
  | .listening => ⟨some .listen, none, none, true⟩
  | .waking => ⟨some .pipe, none, none, true⟩
  | .free => ⟨none, none, none, false⟩
  | .accepted _ conn => ⟨some (.conn conn), none, none, false⟩
  | .armed hdle conn => ⟨some (.conn conn), some hdle, some (fd, false), true⟩
  | .held _ hdle conn => ⟨some (.conn conn), some hdle, some (fd, false), false⟩
  | .flagged hdle conn => ⟨some (.conn conn), some hdle, some (fd, true), false⟩

variable {R L : Type}

def placeOf (state : State R L) (fd : Fd) : Place where
  file := state.files fd
  mapped := state.m_fd_set.lookup fd
  core := ((state.m_fd_set.lookup fd).bind state.handles).map fun value =>
    (value.fd, value.failed)
  armed := state.interest fd

def pending (state : State R L) : List Fd :=
  state.ready_event.take state.ready_event_num.toNat

def Owns (table : Fd → Stage R) (receiver : R) : Receiver → Prop
  | .accepted fd | .counted fd => ∃ conn, table fd = .accepted receiver conn
  | .inserted fd | .dispatched fd | .submitted fd =>
      ∃ hdle conn, table fd = .held receiver hdle conn
  | .receiving fd hdle | .rejecting fd hdle | .failing fd hdle =>
      ∃ conn, table fd = .held receiver hdle conn
  | .parsed fd hdle _ conn | .submitting fd hdle _ conn => table fd = .held receiver hdle conn
  | .idle | .locked | .accepting | .flagged _ _ | .exited => True

/-- The server's state is the one the stages describe. -/
structure Linked (config : Config) (table : Fd → Stage R) (state : State R L) : Prop where
  places : ∀ fd, placeOf state fd = (table fd).place fd
  owners : ∀ receiver, Owns table receiver (state.receivers receiver)
  live : ∀ hdle value, state.handles hdle = some value → (table value.fd).handle = some hdle
  listening : ∀ fd, table fd = .listening ↔ fd = config.listen
  waking : ∀ fd, table fd = .waking ↔ fd = config.pipe_read
  freshHandle : ∀ hdle, state.nextHandle ≤ hdle → state.handles hdle = none
  freshConn : ∀ fd conn, (table fd).conn = some conn → conn < state.nextConn
  apart : ∀ fd other conn, (table fd).conn = some conn → (table other).conn = some conn →
    fd = other
  watched : ∀ fd ∈ pending state, state.interest fd = true
  once : (pending state).Nodup

theorem owns_update (table : Fd → Stage R) (receiver : R) (place : Receiver) (fd : Fd)
    (stage : Stage R) (other : (table fd).owner ≠ some receiver)
    (owns : Owns table receiver place) : Owns (Function.update table fd stage) receiver place := by
  have kept (mine : Fd) (held : (table mine).owner = some receiver) :
      Function.update table fd stage mine = table mine := by
    apply Function.update_of_ne
    intro same
    subst same
    exact other held
  cases place <;> simp only [Owns] at owns ⊢
  all_goals
    first
      | (obtain ⟨hdle, conn, held⟩ := owns
         exact ⟨hdle, conn, by rw [kept _ (by rw [held]; rfl), held]⟩)
      | (obtain ⟨conn, held⟩ := owns
         exact ⟨conn, by rw [kept _ (by rw [held]; rfl), held]⟩)
      | (rw [kept _ (by rw [owns]; rfl), owns])

section Frame
variable {config : Config} {table : Fd → Stage R} {state : State R L}

theorem Linked.keep (linked : Linked config table state) (after : State R L)
    (places : ∀ fd, placeOf after fd = placeOf state fd)
    (owners : ∀ receiver, Owns table receiver (after.receivers receiver))
    (live : ∀ hdle value, after.handles hdle = some value →
      ∃ old, state.handles hdle = some old ∧ old.fd = value.fd)
    (nextHandle : after.nextHandle = state.nextHandle)
    (nextConn : after.nextConn = state.nextConn)
    (watched : ∀ fd ∈ pending after, state.interest fd = true)
    (once : (pending after).Nodup) : Linked config table after where
  places := fun fd => (places fd).trans (linked.places fd)
  owners := owners
  live := by
    intro hdle value held
    obtain ⟨old, before, same⟩ := live hdle value held
    rw [← same]
    exact linked.live hdle old before
  listening := linked.listening
  waking := linked.waking
  freshHandle := by
    intro hdle fresh
    rw [nextHandle] at fresh
    by_contra held
    obtain ⟨value, held⟩ := Option.ne_none_iff_exists'.mp held
    obtain ⟨old, before, _⟩ := live hdle value held
    rw [linked.freshHandle hdle fresh] at before
    cases before
  freshConn := by
    rw [nextConn]
    exact linked.freshConn
  apart := linked.apart
  watched := by
    intro fd waits
    exact (congrArg Place.armed (places fd)).trans (watched fd waits)
  once := once

theorem Linked.move (linked : Linked config table state) (after : State R L) (fd : Fd)
    (stage : Stage R) (client : fd ≠ config.listen ∧ fd ≠ config.pipe_read)
    (plain : stage ≠ .listening ∧ stage ≠ .waking)
    (others : ∀ other, other ≠ fd → placeOf after other = placeOf state other)
    (here : placeOf after fd = stage.place fd)
    (owners : ∀ receiver, Owns (Function.update table fd stage) receiver
      (after.receivers receiver))
    (live : ∀ hdle value, after.handles hdle = some value →
      (value.fd = fd ∧ stage.handle = some hdle) ∨
        (value.fd ≠ fd ∧ (table value.fd).handle = some hdle))
    (freshHandle : ∀ hdle, after.nextHandle ≤ hdle → after.handles hdle = none)
    (nextConn : state.nextConn ≤ after.nextConn)
    (conn : ∀ conn, stage.conn = some conn → (table fd).conn = some conn ∨
      (conn = state.nextConn ∧ conn < after.nextConn))
    (watched : ∀ other ∈ pending after, other ≠ fd ∧ state.interest other = true)
    (once : (pending after).Nodup) :
    Linked config (Function.update table fd stage) after where
  places := by
    intro other
    by_cases same : other = fd
    · subst same
      rw [here, Function.update_self]
    · rw [others other same, Function.update_of_ne same, linked.places]
  owners := owners
  live := by
    intro hdle value held
    rcases live hdle value held with ⟨same, stored⟩ | ⟨other, stored⟩
    · rw [same, Function.update_self, stored]
    · rw [Function.update_of_ne other, stored]
  listening := by
    intro other
    by_cases same : other = fd
    · subst same
      simp [plain.1, client.1]
    · rw [Function.update_of_ne same, linked.listening]
  waking := by
    intro other
    by_cases same : other = fd
    · subst same
      simp [plain.2, client.2]
    · rw [Function.update_of_ne same, linked.waking]
  freshHandle := freshHandle
  freshConn := by
    intro other id found
    by_cases same : other = fd
    · subst same
      rw [Function.update_self] at found
      rcases conn id found with old | ⟨_, bound⟩
      · exact Nat.lt_of_lt_of_le (linked.freshConn other id old) nextConn
      · exact bound
    · rw [Function.update_of_ne same] at found
      exact Nat.lt_of_lt_of_le (linked.freshConn other id found) nextConn
  apart := by
    have old (other : Fd) (id : ConnId) (elsewhere : other ≠ fd)
        (there : (table other).conn = some id) (found : stage.conn = some id) : False := by
      rcases conn id found with kept | ⟨new, _⟩
      · exact elsewhere (linked.apart other fd id there kept)
      · exact Nat.lt_irrefl _ (new ▸ linked.freshConn other id there)
    intro first second id one two
    by_cases left : first = fd <;> by_cases right : second = fd
    · rw [left, right]
    · rw [left, Function.update_self] at one
      rw [Function.update_of_ne right] at two
      exact (old second id right two one).elim
    · rw [right, Function.update_self] at two
      rw [Function.update_of_ne left] at one
      exact (old first id left one two).elim
    · rw [Function.update_of_ne left] at one
      rw [Function.update_of_ne right] at two
      exact linked.apart first second id one two
  watched := by
    intro other waits
    obtain ⟨apart, armed⟩ := watched other waits
    exact (congrArg Place.armed (others other apart)).trans armed
  once := once

end Frame

/-! What a step does to the tables. -/
section Places
variable {state : State R L}

theorem place_put (hdle : HandleId) (value next : SocketHandle)
    (live : state.handles hdle = some value)
    (same : (next.fd, next.failed) = (value.fd, value.failed)) (fd : Fd) :
    placeOf (state.put hdle next) fd = placeOf state fd := by
  simp only [placeOf, State.put, Place.mk.injEq, true_and, and_true]
  cases state.m_fd_set.lookup fd with
  | none => rfl
  | some other =>
      by_cases here : other = hdle
      · subst here
        simp [live, same]
      · simp [here]

theorem live_put (hdle : HandleId) (value next : SocketHandle)
    (live : state.handles hdle = some value) (same : next.fd = value.fd) (other : HandleId)
    (held : SocketHandle) (found : (state.put hdle next).handles other = some held) :
    ∃ old, state.handles other = some old ∧ old.fd = held.fd := by
  by_cases here : other = hdle
  · subst here
    simp only [State.put, Function.update_self, Option.some.injEq] at found
    subst found
    exact ⟨value, live, same.symm⟩
  · simp only [State.put, Function.update_of_ne here] at found
    exact ⟨held, found, rfl⟩

end Places

section Derived
variable {config : Config} {table : Fd → Stage R} {state : State R L}

theorem Linked.file (linked : Linked config table state) (fd : Fd) :
    state.files fd = ((table fd).place fd).file :=
  congrArg Place.file (linked.places fd)

theorem Linked.mapped (linked : Linked config table state) (fd : Fd) :
    state.m_fd_set.lookup fd = (table fd).handle := by
  have same := congrArg Place.mapped (linked.places fd)
  cases found : table fd <;> rw [found] at same <;> exact same

theorem Linked.absent (linked : Linked config table state) (receiver : R) (fd : Fd)
    (conn : ConnId) (stage : table fd = .accepted receiver conn) : fd ∉ state.m_fd_set := by
  rw [← AList.lookup_eq_none, linked.mapped, stage]
  rfl

/-- `insert_handle` never finds an entry. -/
theorem Linked.created (linked : Linked config table state) (receiver : R) (fd : Fd)
    (place : state.receivers receiver = .counted fd) :
    create_handle state fd LISTEN_PORT_1 =
      { state.put state.nextHandle ⟨fd, 0, LISTEN_PORT_1, []⟩ with
        nextHandle := state.nextHandle + 1
        m_fd_set := state.m_fd_set.insert fd state.nextHandle } := by
  obtain ⟨conn, stage⟩ := place ▸ linked.owners receiver
  exact create_absent state fd LISTEN_PORT_1 (linked.absent receiver fd conn stage)

theorem Linked.interest (linked : Linked config table state) (fd : Fd) :
    state.interest fd = ((table fd).place fd).armed :=
  congrArg Place.armed (linked.places fd)

theorem Linked.unwatched (linked : Linked config table state) (fd : Fd)
    (unarmed : ((table fd).place fd).armed = false) :
    ∀ other ∈ pending state, other ≠ fd ∧ state.interest other = true := by
  intro other waits
  have armed := linked.watched other waits
  refine ⟨?_, armed⟩
  intro same
  subst same
  rw [linked.interest, unarmed] at armed
  cases armed

theorem core_of_handle (fd : Fd) (stage : Stage R) (hdle : HandleId)
    (stored : stage.handle = some hdle) : ∃ failed, (stage.place fd).core = some (fd, failed) := by
  cases stage <;> cases stored <;> exact ⟨_, rfl⟩

theorem Linked.entry (linked : Linked config table state) (fd : Fd) (hdle : HandleId)
    (found : (table fd).handle = some hdle) :
    ∃ value, state.handles hdle = some value ∧ value.fd = fd ∧
      ((table fd).place fd).core = some (fd, value.failed) := by
  have core := congrArg Place.core (linked.places fd)
  simp only [placeOf, linked.mapped fd, found, Option.bind_some] at core
  cases live : state.handles hdle with
  | none =>
      rw [live] at core
      cases stage : table fd <;> rw [stage] at core found <;> cases found <;> cases core
  | some value =>
      rw [live] at core
      have shown : ((table fd).place fd).core = some (value.fd, value.failed) := core.symm
      obtain ⟨failed, stored⟩ := core_of_handle fd (table fd) hdle found
      have same : value.fd = fd := by
        rw [stored, Option.some.injEq, Prod.mk.injEq] at shown
        exact shown.1.symm
      exact ⟨value, rfl, same, by rw [shown, same]⟩

theorem Linked.entered (linked : Linked config table state) (fd : Fd) (hdle : HandleId)
    (value : SocketHandle) (entry : state.m_fd_set.lookup fd = some hdle)
    (live : state.handles hdle = some value) : fd = value.fd := by
  rw [linked.mapped] at entry
  obtain ⟨found, again, place, _⟩ := linked.entry fd hdle entry
  rw [live] at again
  cases again
  exact place.symm

theorem Linked.same (linked : Linked config table state) (hdle other : HandleId)
    (value old : SocketHandle) (live : state.handles hdle = some value)
    (held : state.handles other = some old) (same : value.fd = old.fd) : hdle = other := by
  have mine := linked.live hdle value live
  rw [same, linked.live other old held] at mine
  cases mine
  rfl

theorem Linked.connection (linked : Linked config table state) (hdle : HandleId)
    (value : SocketHandle) (live : state.handles hdle = some value) :
    ∃ conn, (table value.fd).conn = some conn ∧ state.files value.fd = some (.conn conn) := by
  have stored := linked.live hdle value live
  have file := linked.file value.fd
  cases stage : table value.fd <;> rw [stage] at stored file <;> cases stored <;>
    exact ⟨_, rfl, file⟩

theorem Linked.failed (linked : Linked config table state) (hdle : HandleId)
    (value : SocketHandle) (live : state.handles hdle = some value)
    (failed : value.failed = true) : ∃ conn, table value.fd = .flagged hdle conn := by
  have stored := linked.live hdle value live
  obtain ⟨held, here, _, core⟩ := linked.entry value.fd hdle stored
  rw [live] at here
  cases here
  rw [failed] at core
  cases stage : table value.fd <;> rw [stage] at stored core <;> cases stored <;>
    first
      | exact ⟨_, rfl⟩
      | (simp [Stage.place] at core)

end Derived

section Batch
variable {config : Config} {table : Fd → Stage R} {state : State R L}

theorem fetch_watched (linked : Linked config table state) (waited : Waited) (events : List Fd)
    (num : Int) (fetches : fetch state waited = some (events, num)) :
    (events.take num.toNat).Nodup ∧ ∀ fd ∈ events.take num.toNat, state.interest fd = true := by
  unfold fetch at fetches
  split at fetches
  · cases fetches
    exact ⟨linked.once, linked.watched⟩
  · split at fetches
    · split at fetches
      · rename_i reported
        cases fetches
        rw [Int.toNat_natCast, List.take_length]
        exact ⟨reported.2.2.1, reported.2.2.2⟩
      · cases fetches
    · cases fetches
      exact ⟨List.nodup_nil, by simp⟩
    · cases fetches
      exact ⟨List.nodup_nil, by simp⟩

theorem fetched_pending (linked : Linked config table state) (waited : Waited)
    (events : List Fd) (num : Int) (fetches : fetch state waited = some (events, num)) :
    (events.take (num - 1).toNat).Nodup ∧
      ∀ fd ∈ events.take (num - 1).toNat, state.interest fd = true := by
  obtain ⟨once, watched⟩ := fetch_watched linked waited events num fetches
  have fewer : events.take (num - 1).toNat <+: events.take num.toNat :=
    List.take_prefix_take_left (by omega)
  exact ⟨once.sublist fewer.sublist, fun fd waits => watched fd (fewer.subset waits)⟩

/-- The event that is taken is registered and not waiting a second time. -/
theorem fetched_event (linked : Linked config table state) (waited : Waited) (events : List Fd)
    (num : Int) (fd : Fd) (fetches : fetch state waited = some (events, num))
    (event : events[(num - 1).toNat]? = some fd) (counted : ¬ num < 0) :
    state.interest fd = true ∧ fd ∉ events.take (num - 1).toNat := by
  obtain ⟨once, watched⟩ := fetch_watched linked waited events num fetches
  have positive : 0 < num := by
    unfold fetch at fetches
    split at fetches
    · rename_i left
      cases fetches
      exact left
    · split at fetches
      · split at fetches
        · rename_i reported
          cases fetches
          have size := List.length_pos_iff.mpr reported.1
          omega
        · cases fetches
      · cases fetches
        omega
      · cases fetches
        omega
  -- The event is the last of the batch that is left, and it occurs there once.
  have last : events.take num.toNat = events.take (num - 1).toNat ++ [fd] := by
    have size : num.toNat = (num - 1).toNat + 1 := by omega
    rw [size, List.take_add_one, event]
    rfl
  rw [last] at once watched
  refine ⟨watched fd (by simp), ?_⟩
  intro again
  exact List.disjoint_of_nodup_append once again (by simp)
end Batch

section Step
variable [DecidableEq R] {config : Config} {table : Fd → Stage R} {state : State R L}

theorem owners_at (linked : Linked config table state) (receiver : R) (place : Receiver)
    (owns : Owns table receiver place) (other : R) :
    Owns table other (Function.update state.receivers receiver place other) := by
  by_cases same : other = receiver
  · subst same
    rwa [Function.update_self]
  · rw [Function.update_of_ne same]
    exact linked.owners other

theorem owners_move (linked : Linked config table state) (fd : Fd) (stage : Stage R)
    (receiver : R) (place : Receiver)
    (mine : ∀ other, (table fd).owner = some other → other = receiver)
    (owns : Owns (Function.update table fd stage) receiver place) (other : R) :
    Owns (Function.update table fd stage) other
      (Function.update state.receivers receiver place other) := by
  by_cases same : other = receiver
  · subst same
    rwa [Function.update_self]
  · rw [Function.update_of_ne same]
    exact owns_update table other _ fd stage (fun held => same (mine other held))
      (linked.owners other)

/-- The table after a step: the same, or one descriptor moved. -/
def Refines (config : Config) (table : Fd → Stage R) (after : State R L) : Prop :=
  ∃ next, Linked config next after ∧
    (next = table ∨ ∃ fd stage, Move (table fd) stage ∧ next = Function.update table fd stage)

theorem thread_refines (linked : Linked config table state) (after : State R L) (receiver : R)
    (place : Receiver) (owns : Owns table receiver place)
    (receivers : after.receivers = Function.update state.receivers receiver place)
    (places : ∀ fd, placeOf after fd = placeOf state fd)
    (live : ∀ hdle value, after.handles hdle = some value →
      ∃ old, state.handles hdle = some old ∧ old.fd = value.fd)
    (nextHandle : after.nextHandle = state.nextHandle)
    (nextConn : after.nextConn = state.nextConn)
    (watched : ∀ fd ∈ pending after, state.interest fd = true)
    (once : (pending after).Nodup) : Refines config table after :=
  ⟨table, linked.keep after places (receivers ▸ owners_at linked receiver place owns) live
    nextHandle nextConn watched once, Or.inl rfl⟩

omit [DecidableEq R] in
theorem same_live (hdle : HandleId) (value : SocketHandle)
    (live : state.handles hdle = some value) :
    ∃ old, state.handles hdle = some old ∧ old.fd = value.fd :=
  ⟨value, live, rfl⟩

omit [DecidableEq R] in
theorem held_value (linked : Linked config table state) (receiver : R) (fd : Fd)
    (hdle : HandleId) (conn : ConnId) (value : SocketHandle)
    (held : table fd = .held receiver hdle conn) (live : state.handles hdle = some value) :
    value.fd = fd ∧ value.failed = false ∧ state.files value.fd = some (.conn conn) := by
  obtain ⟨entered, found, here, core⟩ := linked.entry fd hdle (by rw [held]; rfl)
  rw [live] at found
  cases found
  rw [held] at core
  simp only [Stage.place, Option.some.injEq, Prod.mk.injEq, true_and] at core
  refine ⟨here, core.symm, ?_⟩
  rw [here, linked.file fd, held]
  rfl

omit [DecidableEq R] in
theorem conn_of_held (linked : Linked config table state) (receiver : R) (fd : Fd)
    (hdle : HandleId) (id conn : ConnId) (value : SocketHandle)
    (held : table fd = .held receiver hdle id) (live : state.handles hdle = some value)
    (file : state.files value.fd = some (.conn conn)) : id = conn := by
  obtain ⟨_, _, open'⟩ := held_value linked receiver fd hdle id value held live
  rw [open'] at file
  cases file
  rfl

theorem accept_refines (linked : Linked config table state) (receiver : R) (fd : Fd)
    (free : state.files fd = none) :
    Refines config table { state.at receiver (.accepted fd) with
      files := Function.update state.files fd (some (.conn state.nextConn))
      nextConn := state.nextConn + 1 } := by
  have stage : table fd = .free := by
    have file := linked.file fd
    rw [free] at file
    cases stage : table fd <;> rw [stage] at file <;> first | rfl | cases file
  have mapped : state.m_fd_set.lookup fd = none := by rw [linked.mapped, stage]; rfl
  have armed : state.interest fd = false := by rw [linked.interest, stage]; rfl
  have client : fd ≠ config.listen ∧ fd ≠ config.pipe_read := by
    constructor <;> intro same
    · rw [(linked.listening fd).mpr same] at stage
      cases stage
    · rw [(linked.waking fd).mpr same] at stage
      cases stage
  refine ⟨_, linked.move _ fd (.accepted receiver state.nextConn) client
    ⟨nofun, nofun⟩ ?_ ?_ ?_ ?_ ?_ ?_ ?_ ?_ linked.once,
    Or.inr ⟨fd, _, stage ▸ .accept receiver state.nextConn, rfl⟩⟩
  · intro other apart
    simp [placeOf, State.at, Function.update_of_ne apart]
  · simp [placeOf, State.at, mapped, armed, Stage.place]
  · refine owners_move linked fd _ receiver _ ?_ ⟨state.nextConn, Function.update_self ..⟩
    rw [stage]
    exact fun other held => (by cases held)
  · intro hdle value live
    refine Or.inr ⟨?_, linked.live hdle value live⟩
    intro same
    have stored := linked.live hdle value live
    rw [same, stage] at stored
    cases stored
  · exact linked.freshHandle
  · exact Nat.le_succ _
  · intro conn found
    cases found
    exact Or.inr ⟨rfl, Nat.lt_succ_self _⟩
  · exact linked.unwatched fd (by rw [stage]; rfl)

omit [DecidableEq R] in
theorem client_of_conn (linked : Linked config table state) (fd : Fd) (conn : ConnId)
    (found : (table fd).conn = some conn) : fd ≠ config.listen ∧ fd ≠ config.pipe_read := by
  constructor <;> intro same
  · rw [(linked.listening fd).mpr same] at found
    cases found
  · rw [(linked.waking fd).mpr same] at found
    cases found

theorem create_refines (linked : Linked config table state) (receiver : R) (fd : Fd)
    (conn : ConnId) (stage : table fd = .accepted receiver conn) :
    Refines config table ((create_handle state fd LISTEN_PORT_1).at receiver (.inserted fd)) := by
  have client := client_of_conn linked fd conn (by rw [stage]; rfl)
  have absent := linked.absent receiver fd conn stage
  have file : state.files fd = some (.conn conn) := by rw [linked.file, stage]; rfl
  have armed : state.interest fd = false := by rw [linked.interest, stage]; rfl
  rw [create_absent state fd LISTEN_PORT_1 absent]
  refine ⟨_, linked.move _ fd (.held receiver state.nextHandle conn) client
    ⟨nofun, nofun⟩ ?_ ?_ ?_ ?_ ?_ ?_ ?_ ?_
    linked.once, Or.inr ⟨fd, _, stage ▸ .enter receiver state.nextHandle conn, rfl⟩⟩
  · intro other apart
    simp only [placeOf, State.at, State.put, Place.mk.injEq, true_and, and_true]
    rw [AList.lookup_insert_ne apart]
    refine ⟨rfl, ?_⟩
    cases entry : state.m_fd_set.lookup other with
    | none => rfl
    | some hdle =>
        -- What is entered is live, and the new handle is not yet.
        have old : hdle ≠ state.nextHandle := by
          intro same
          rw [linked.mapped] at entry
          obtain ⟨value, live, _⟩ := linked.entry other hdle entry
          rw [linked.freshHandle hdle (Nat.le_of_eq same.symm)] at live
          cases live
        simp [Function.update_of_ne old]
  · simp [placeOf, State.at, State.put, Stage.place, file, armed, SocketHandle.failed,
      LISTEN_PORT_1, ERROR_SOCKET]
  · refine owners_move linked fd _ receiver _ ?_
      ⟨state.nextHandle, conn, Function.update_self ..⟩
    rw [stage]
    exact fun other held => (by cases held; rfl)
  · intro hdle value live
    by_cases new : hdle = state.nextHandle
    · subst new
      simp only [State.at, State.put, Function.update_self, Option.some.injEq] at live
      subst live
      exact Or.inl ⟨rfl, rfl⟩
    · simp only [State.at, State.put, Function.update_of_ne new] at live
      have stored := linked.live hdle value live
      refine Or.inr ⟨?_, stored⟩
      intro same
      rw [same, stage] at stored
      cases stored
  · intro hdle fresh
    have new : hdle ≠ state.nextHandle := Nat.ne_of_gt fresh
    simp only [State.at, State.put, Function.update_of_ne new]
    exact linked.freshHandle hdle (Nat.le_of_succ_le fresh)
  · exact Nat.le_refl _
  · intro id found
    cases found
    exact Or.inl (by rw [stage]; rfl)
  · exact linked.unwatched fd (by rw [stage]; rfl)

theorem arm_refines (linked : Linked config table state) (receiver : R) (fd : Fd)
    (hdle : HandleId) (conn : ConnId) (stage : table fd = .held receiver hdle conn)
    (place : Receiver) (free : place = .idle ∨ place = .accepting) (after : State R L)
    (shape : placeOf after = placeOf ((add_input_fd state fd).at receiver place))
    (same : (after.receivers, after.handles, after.nextHandle, after.nextConn) =
      (Function.update state.receivers receiver place, state.handles, state.nextHandle,
        state.nextConn))
    (batch : pending after = pending state) : Refines config table after := by
  simp only [Prod.mk.injEq] at same
  obtain ⟨receivers, handles, nextHandle, nextConn⟩ := same
  have file : state.files fd = some (.conn conn) := by rw [linked.file, stage]; rfl
  have before := linked.places fd
  rw [stage] at before
  have armed := add_open state fd _ file
  refine ⟨_, linked.move after fd (.armed hdle conn)
    (client_of_conn linked fd conn (by rw [stage]; rfl)) ⟨nofun, nofun⟩ ?_ ?_ ?_ ?_ ?_ ?_ ?_ ?_ ?_,
    Or.inr ⟨fd, _, stage ▸ .arm receiver hdle conn, rfl⟩⟩
  · intro other apart
    rw [shape, armed]
    simp [placeOf, State.at, Function.update_of_ne apart]
  · rw [shape, armed]
    simp only [placeOf, Stage.place, Place.mk.injEq] at before
    simp only [placeOf, State.at, Stage.place, Function.update_self, Place.mk.injEq, and_true]
    exact ⟨before.1, before.2.1, before.2.2.1⟩
  · rw [receivers]
    refine owners_move linked fd _ receiver _ ?_ ?_
    · rw [stage]
      exact fun other held => (by cases held; rfl)
    · rcases free with idle | accepting
      · rw [idle]
        trivial
      · rw [accepting]
        trivial
  · intro other value live
    rw [handles] at live
    have stored := linked.live other value live
    by_cases here : value.fd = fd
    · rw [here, stage] at stored
      exact Or.inl ⟨here, stored⟩
    · exact Or.inr ⟨here, stored⟩
  · rw [nextHandle, handles]
    exact linked.freshHandle
  · exact Nat.le_of_eq nextConn.symm
  · intro id found
    cases found
    exact Or.inl (by rw [stage]; rfl)
  · rw [batch]
    exact linked.unwatched fd (by rw [stage]; rfl)
  · rw [batch]
    exact linked.once

theorem take_refines (linked : Linked config table state) (receiver : R) (waited : Waited)
    (events : List Fd) (num : Int) (fd : Fd)
    (fetches : fetch state waited = some (events, num)) (counted : ¬ num < 0)
    (event : events[(num - 1).toNat]? = .some fd)
    (client : fd ≠ config.listen ∧ fd ≠ config.pipe_read) :
    Refines config table
      ((del_input_fd (state.fetched events num) fd).at receiver (.dispatched fd)).unlock := by
  obtain ⟨armed, gone⟩ := fetched_event linked waited events num fd fetches event counted
  obtain ⟨once, watched⟩ := fetched_pending linked waited events num fetches
  -- A client that epoll reports is registered, so its stage is `armed`.
  obtain ⟨hdle, conn, stage⟩ : ∃ hdle conn, table fd = .armed hdle conn := by
    rw [linked.interest] at armed
    cases stage : table fd <;> rw [stage] at armed
    case listening => exact absurd ((linked.listening fd).mp stage) client.1
    case waking => exact absurd ((linked.waking fd).mp stage) client.2
    case armed hdle conn => exact ⟨hdle, conn, rfl⟩
    all_goals cases armed
  have before := linked.places fd
  simp only [stage, placeOf, Stage.place, Place.mk.injEq] at before
  refine ⟨_, linked.move _ fd (.held receiver hdle conn) client ⟨nofun, nofun⟩ ?_ ?_ ?_ ?_
    linked.freshHandle (Nat.le_refl _) ?_ ?_ once,
    Or.inr ⟨fd, _, stage ▸ .take receiver hdle conn, rfl⟩⟩
  · intro other apart
    simp [placeOf, State.at, State.unlock, State.fetched, del_input_fd,
      Function.update_of_ne apart]
  · simp only [placeOf, State.at, State.unlock, State.fetched, del_input_fd, Stage.place,
      Function.update_self, Place.mk.injEq, and_true]
    exact ⟨before.1, before.2.1, before.2.2.1⟩
  · refine owners_move linked fd _ receiver _ ?_ ⟨hdle, conn, Function.update_self ..⟩
    rw [stage]
    exact fun other held => (by cases held)
  · intro other value live
    have stored := linked.live other value live
    by_cases here : value.fd = fd
    · rw [here, stage] at stored
      exact Or.inl ⟨here, stored⟩
    · exact Or.inr ⟨here, stored⟩
  · intro id found
    cases found
    exact Or.inl (by rw [stage]; rfl)
  · intro other waits
    refine ⟨?_, watched other waits⟩
    intro same
    exact gone (same ▸ waits)

theorem failed_flag (value : SocketHandle) :
    SocketHandle.failed { value with flag := value.flag ||| ERROR_SOCKET } = true := by
  have kept : (value.flag ||| ERROR_SOCKET) &&& ERROR_SOCKET = ERROR_SOCKET := by
    ext i
    simp only [BitVec.getElem_and, BitVec.getElem_or, Bool.and_eq_right_iff_imp]
    intro set
    rw [set, Bool.or_true]
  simp only [SocketHandle.failed, kept]
  decide

theorem flag_refines (linked : Linked config table state) (receiver : R) (fd : Fd)
    (hdle : HandleId) (value : SocketHandle) (conn : ConnId)
    (stage : table fd = .held receiver hdle conn) (live : state.handles hdle = some value) :
    Refines config table
      ((state.put hdle { value with flag := value.flag ||| ERROR_SOCKET }).at receiver
        (.flagged fd hdle)) := by
  obtain ⟨here, _, _⟩ := held_value linked receiver fd hdle conn value stage live
  have before := linked.places fd
  simp only [stage, placeOf, Stage.place, Place.mk.injEq] at before
  refine ⟨_, linked.move _ fd (.flagged hdle conn)
    (client_of_conn linked fd conn (by rw [stage]; rfl)) ⟨nofun, nofun⟩ ?_ ?_ ?_ ?_ ?_
    (Nat.le_refl _) ?_ (linked.unwatched fd (by rw [stage]; rfl)) linked.once,
    Or.inr ⟨fd, _, stage ▸ .fail receiver hdle conn, rfl⟩⟩
  · intro other apart
    simp only [placeOf, State.at, State.put, Place.mk.injEq, true_and, and_true]
    cases entry : state.m_fd_set.lookup other with
    | none => rfl
    | some held =>
        have elsewhere : held ≠ hdle := by
          intro same
          subst same
          exact apart ((linked.entered other held value entry live).trans here)
        simp [Function.update_of_ne elsewhere]
  · simp only [placeOf, State.at, State.put, Stage.place, Place.mk.injEq]
    refine ⟨before.1, before.2.1, ?_, before.2.2.2⟩
    rw [before.2.1]
    simp only [Option.bind_some, Function.update_self, Option.map_some, here,
      Option.some.injEq, Prod.mk.injEq, true_and]
    exact failed_flag value
  · refine owners_move linked fd _ receiver _ ?_ trivial
    rw [stage]
    exact fun other held => (by cases held; rfl)
  · intro other found held
    obtain ⟨old, before, same⟩ := live_put hdle value
      { value with flag := value.flag ||| ERROR_SOCKET } live rfl other found held
    have stored := linked.live other old before
    rw [same] at stored
    by_cases place : found.fd = fd
    · rw [place, stage] at stored
      exact Or.inl ⟨place, stored⟩
    · exact Or.inr ⟨place, stored⟩
  · intro other fresh
    have old : other ≠ hdle := by
      intro same
      subst same
      rw [linked.freshHandle other fresh] at live
      cases live
    simp only [State.at, State.put, Function.update_of_ne old]
    exact linked.freshHandle other fresh
  · intro id found
    cases found
    exact Or.inl (by rw [stage]; rfl)

omit [DecidableEq R] in
theorem released_refines (linked : Linked config table state) (hdle : HandleId)
    (value : SocketHandle) (next after : State R L) (live : state.handles hdle = some value)
    (released : Released state hdle value next)
    (moved : ∀ receiver, after.receivers receiver = state.receivers receiver ∨
      ∀ stages : Fd → Stage R, Owns stages receiver (after.receivers receiver))
    (same : (placeOf after, after.handles, after.nextHandle, after.nextConn, pending after) =
      (placeOf next, next.handles, next.nextHandle, next.nextConn, pending next)) :
    Refines config table after := by
  simp only [Prod.mk.injEq] at same
  obtain ⟨places, handles, nextHandle, nextConn, batch⟩ := same
  cases released with
  | kept still =>
      refine ⟨table, linked.keep after ?_ ?_ ?_ nextHandle nextConn
        (batch ▸ linked.watched) (batch ▸ linked.once), Or.inl rfl⟩
      · rw [places]
        exact place_put hdle value _ live rfl
      · intro receiver
        rcases moved receiver with still | owns
        · rw [still]
          exact linked.owners receiver
        · exact owns table
      · rw [handles]
        exact live_put hdle value _ live rfl
  | closed last failed =>
      -- Only a handle with the error flag is closed, and its stage is `flagged`.
      obtain ⟨conn, stage⟩ := linked.failed hdle value live failed
      have mapped : state.m_fd_set.lookup value.fd = some hdle := by
        rw [linked.mapped, stage]
        rfl
      refine ⟨_, linked.move after value.fd .free
        (client_of_conn linked value.fd conn (by rw [stage]; rfl)) ⟨nofun, nofun⟩ ?_ ?_ ?_ ?_ ?_
        (Nat.le_of_eq nextConn.symm) nofun
        (batch ▸ linked.unwatched value.fd (by rw [stage]; rfl)) (batch ▸ linked.once),
        Or.inr ⟨value.fd, _, stage ▸ .close hdle conn, rfl⟩⟩
      · intro other apart
        rw [places]
        simp only [placeOf, del_input_fd, Function.update_of_ne apart,
          AList.lookup_erase_ne apart, Place.mk.injEq, true_and, and_true]
        cases entry : state.m_fd_set.lookup other with
        | none => rfl
        | some held =>
            have elsewhere : held ≠ hdle := by
              intro same
              subst same
              exact apart (linked.entered other held value entry live)
            simp [Function.update_of_ne elsewhere]
      · rw [places]
        simp [placeOf, del_input_fd, Stage.place]
      · intro receiver
        rcases moved receiver with still | owns
        · rw [still]
          exact owns_update table receiver _ value.fd .free (by rw [stage]; nofun)
            (linked.owners receiver)
        · exact owns _
      · intro other found held
        rw [handles] at held
        have elsewhere : other ≠ hdle := by
          intro same
          subst same
          simp at held
        simp only [Function.update_of_ne elsewhere] at held
        have stored := linked.live other found held
        refine Or.inr ⟨?_, stored⟩
        intro place
        rw [place, stage] at stored
        cases stored
        exact elsewhere rfl
      · intro other fresh
        rw [nextHandle] at fresh
        rw [handles]
        by_cases here : other = hdle
        · simp [here]
        · simp only [Function.update_of_ne here]
          exact linked.freshHandle other fresh

/-- The server's tables refine the stages: a step makes at most one move. -/
theorem moved_refines [DecidableEq L] (linked : Linked config table state)
    (action : Action R L) (after : State R L) (moved : Moved config state action after) :
    Refines config table after := by
  have owned (receiver : R) (place : Receiver) (here : state.receivers receiver = place) :
      Owns table receiver place := here ▸ linked.owners receiver
  have still (next : State R L) (receivers : next.receivers = state.receivers)
      (places : ∀ fd, placeOf next fd = placeOf state fd)
      (same : (next.handles, next.nextHandle, next.nextConn, pending next) =
        (state.handles, state.nextHandle, state.nextConn, pending state)) :
      Refines config table next := by
    simp only [Prod.mk.injEq] at same
    obtain ⟨handles, nextHandle, nextConn, batch⟩ := same
    exact ⟨table, linked.keep next places (receivers ▸ linked.owners)
      (handles ▸ same_live) nextHandle nextConn (batch ▸ linked.watched)
      (batch ▸ linked.once), Or.inl rfl⟩
  cases moved with
  | exit place =>
      exact thread_refines linked _ _ .exited trivial rfl (fun _ => rfl) same_live rfl rfl
        linked.watched linked.once
  | lock place free =>
      exact thread_refines linked _ _ .locked trivial rfl (fun _ => rfl) same_live rfl rfl
        linked.watched linked.once
  | waitFailed next ends place fetches negative =>
      obtain ⟨once, watched⟩ := fetched_pending linked _ _ _ fetches
      refine thread_refines linked _ _ next ?_ rfl (fun _ => rfl) same_live rfl rfl watched once
      rcases ends with same | same <;> rw [same] <;> trivial
  | waitListen place fetches counted event =>
      obtain ⟨once, watched⟩ := fetched_pending linked _ _ _ fetches
      exact thread_refines linked _ _ .accepting trivial rfl (fun _ => rfl) same_live rfl rfl
        watched once
  | waitPipe place fetches counted event =>
      obtain ⟨once, watched⟩ := fetched_pending linked _ _ _ fetches
      exact thread_refines linked _ _ .idle trivial rfl (fun _ => rfl) same_live rfl rfl
        watched once
  | waitClient place fetches counted event client =>
      exact take_refines linked _ _ _ _ _ fetches counted event client
  | acceptNone place =>
      exact thread_refines linked _ _ .idle trivial rfl (fun _ => rfl) same_live rfl rfl
        linked.watched linked.once
  | acceptSome place free => exact accept_refines linked _ _ free
  | count place =>
      exact thread_refines linked _ _ (.counted _) (owned _ _ place :) rfl (fun _ => rfl)
        same_live rfl rfl linked.watched linked.once
  | create place =>
      obtain ⟨conn, stage⟩ := owned _ _ place
      exact create_refines linked _ _ conn stage
  | add place =>
      obtain ⟨hdle, conn, stage⟩ := owned _ _ place
      refine arm_refines linked _ _ hdle conn stage .accepting (Or.inr rfl) _ rfl ?_ ?_ <;>
        rw [add_input_fd_eq] <;> rfl
  | acquire place found live =>
      obtain ⟨hdle, conn, stage⟩ := owned _ _ place
      rw [linked.mapped, stage] at found
      cases found
      exact thread_refines linked _ _ (.receiving _ _) ⟨conn, stage⟩ rfl
        (place_put _ _ _ live rfl) (live_put _ _ _ live rfl) rfl rfl linked.watched linked.once
  | headerComplete place live file ran =>
      obtain ⟨id, stage⟩ := owned _ _ place
      have same := conn_of_held linked _ _ _ _ _ _ stage live file
      exact thread_refines linked _ _ (.parsed _ _ _ _) (same ▸ stage :) rfl
        (place_put _ _ _ live rfl) (live_put _ _ _ live rfl) rfl rfl linked.watched linked.once
  | headerError place live file ran =>
      exact thread_refines linked _ _ (.failing _ _) (owned _ _ place :) rfl
        (place_put _ _ _ live rfl) (live_put _ _ _ live rfl) rfl rfl linked.watched linked.once
  | bodyRejected place rejected =>
      exact thread_refines linked _ _ (.rejecting _ _) ⟨_, (owned _ _ place :)⟩ rfl
        (fun _ => rfl) same_live rfl rfl linked.watched linked.once
  | bodyComplete place accepted live file ran =>
      exact thread_refines linked _ _ (.submitting _ _ _ _) (owned _ _ place :) rfl
        (place_put _ _ _ live rfl) (live_put _ _ _ live rfl) rfl rfl linked.watched linked.once
  | bodyShort place accepted live file ran short =>
      exact thread_refines linked _ _ (.failing _ _) ⟨_, (owned _ _ place :)⟩ rfl
        (place_put _ _ _ live rfl) (live_put _ _ _ live rfl) rfl rfl linked.watched linked.once
  | submit place | submitFlushed place =>
      exact thread_refines linked _ _ (.submitted _) ⟨_, _, (owned _ _ place :)⟩ rfl
        (fun _ => rfl) same_live rfl rfl linked.watched linked.once
  | rearmSubmitted place =>
      obtain ⟨hdle, conn, stage⟩ := owned _ _ place
      refine arm_refines linked _ _ hdle conn stage .idle (Or.inl rfl) _ rfl ?_ ?_ <;>
        rw [add_input_fd_eq] <;> rfl
  | rearmRejected place =>
      obtain ⟨conn, stage⟩ := owned _ _ place
      refine arm_refines linked _ _ _ conn stage .idle (Or.inl rfl) _ rfl ?_ ?_ <;>
        rw [add_input_fd_eq] <;> rfl
  | flag place live =>
      obtain ⟨conn, stage⟩ := owned _ _ place
      exact flag_refines linked _ _ _ _ conn stage live
  | @drop receiver fd hdle value next place live released =>
      refine released_refines linked _ _ _ _ live released ?_ rfl
      intro other
      by_cases same : other = receiver
      · right
        intro stages
        simp only [State.at, same, Function.update_self]
        trivial
      · left
        simp only [State.at, Function.update_of_ne same]
        cases released <;> rfl
  | get | getNull | send | arrive | stop | flush => exact still _ rfl (fun _ => rfl) rfl
  | release place live released =>
      refine released_refines linked _ _ _ _ live released ?_ rfl
      intro other
      left
      cases released <;> rfl

end Step

section Runs
variable [DecidableEq R] [Fintype R] [DecidableEq L] {config : Config}

/-- The runs of the server: every interleaving of its threads and clients. -/
abbrev Running (config : Config) (state : State R L) : Prop :=
  Transition.Reachable (step config) (· = State.initial config R L) state

def opening (config : Config) (fd : Fd) : Stage R :=
  if fd = config.listen then .listening
  else if fd = config.pipe_read then .waking
  else .free

omit [DecidableEq R] [Fintype R] [DecidableEq L] in
theorem initial_linked : Linked config (opening config) (State.initial config R L) where
  places := by
    intro fd
    by_cases listen : fd = config.listen
    · simp [placeOf, State.initial, opening, listen, Stage.place]
    · by_cases pipe : fd = config.pipe_read
      · simp [placeOf, State.initial, opening, pipe, Ne.symm config.distinct, Stage.place]
      · simp [placeOf, State.initial, opening, listen, pipe, Stage.place]
  owners := fun _ => trivial
  live := nofun
  listening := by
    intro fd
    unfold opening
    split
    · simp_all
    · split <;> simp_all
  waking := by
    intro fd
    have distinct := config.distinct
    unfold opening
    split
    · rename_i listen
      subst listen
      simp [distinct]
    · split <;> simp_all
  freshHandle := fun _ _ => rfl
  freshConn := by
    intro fd conn found
    unfold opening at found
    split at found
    · cases found
    · split at found <;> cases found
  apart := by
    intro fd other conn found
    unfold opening at found
    split at found
    · cases found
    · split at found <;> cases found
  watched := by simp [pending, State.initial]
  once := by simp [pending, State.initial]

/-- In every reachable state the server's tables are those of some stages. -/
theorem reachable_linked (state : State R L) (reached : Running config state) :
    ∃ table, Linked config table state := by
  refine reached.invariant (fun state => ∃ table, Linked config table state) ?_ ?_
  · intro state start
    subst start
    exact ⟨opening config, initial_linked⟩
  · rintro before action after _ _ ⟨table, linked⟩ moved
    obtain ⟨next, kept, _⟩ :=
      moved_refines linked action after (step_moved config before after action moved)
    exact ⟨next, kept⟩

end Runs

/-! A server to run examples on: the listening socket is 3, the pipe 4. -/

def sample : Config := ⟨3, 4, by decide, RequestHeader.GetInfo 0⟩

def event {R L : Type} (receiver : R) (fd : Fd) : List (Action R L) :=
  [.lock receiver, .wait receiver (.events [fd])]

def connect {R L : Type} (receiver : R) (fd : Fd) : List (Action R L) :=
  event receiver 3 ++ [.accept receiver (some fd), .count receiver, .create receiver,
    .add receiver, .accept receiver none]

/-- A request arrives on `conn` and is submitted; reads are as large as they can be. -/
def request {R L : Type} (receiver : R) (fd : Fd) (conn : ConnId) : List (Action R L) :=
  .arrive conn (text "POST /request HTTP/1.1\r\nContent-Length:0\r\n\r\n") ::
    (event receiver fd ++ [.acquire receiver, .readHeader receiver [512],
      .readBody receiver [], .submit receiver, .rearm receiver])

/-- An empty header arrives on `conn`: an invalid package. -/
def invalidPackage {R L : Type} (receiver : R) (fd : Fd) (conn : ConnId) : List (Action R L) :=
  .arrive conn crlfcrlf ::
    (event receiver fd ++ [.acquire receiver, .readHeader receiver [512],
      .readBody receiver [], .rearm receiver])

def disconnect {R L : Type} (receiver : R) (fd : Fd) : List (Action R L) :=
  event receiver fd ++ [.acquire receiver, .readHeader receiver [], .flag receiver]

end AsrServer.Ownership
