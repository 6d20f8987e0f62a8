import AsrServer.Framing
import AsrServer.AtRest

/-!
The server left to itself comes to rest. A bound on the steps it can still take
without a client is read off the state: what a thread has before it until it is
idle again, the workers in the list, the bytes that are still to be read and the
descriptors epoll watches. Every step of its own lowers the bound, whatever the
order of the threads, so nothing it does goes on for ever.
-/

namespace AsrServer.Settling

open Bytes ReadPath Server Ownership AtRest

variable {R L : Type}

/-! A read loop takes bytes from the kernel and never makes any. -/

theorem substr_length (string rest : List Byte) (pos : Int)
    (taken : substr string pos = some rest) :
    0 ≤ pos ∧ rest.length + pos.toNat = string.length := by
  unfold substr at taken
  split at taken
  · rename_i inside
    cases taken
    refine ⟨inside.1, ?_⟩
    rw [List.length_drop]
    omega
  · cases taken

theorem cut_length (buffer rest : List Byte) (result : HeaderResult)
    (cut : cut_header buffer = some (result, rest)) :
    rest.length ≤ buffer.length ∧
      ∀ http, result = .complete http → rest.length + 4 ≤ buffer.length := by
  unfold cut_header at cut
  cases found : find buffer crlfcrlf with
  | none => simp [found] at cut
  | some at' =>
      simp only [found] at cut
      split at cut
      · rename_i low
        cases taken : substr buffer (toInt (toInt at' + 4)) with
        | none =>
            rw [taken] at cut
            cases cut
            exact ⟨le_rfl, nofun⟩
        | some tail =>
            rw [taken] at cut
            cases cut
            obtain ⟨inside, length⟩ := substr_length buffer rest _ taken
            have high := toInt_high at'
            -- The sum does not wrap: `substr` would have thrown.
            have fits : toInt at' + 4 < 2 ^ 31 := by
              by_contra past
              have wraps := toInt_wraps (toInt at' + 4) (by omega) (by omega)
              omega
            rw [toInt_eq _ (by omega) fits] at length
            exact ⟨by omega, fun _ _ => by omega⟩
      · cases cut

theorem read_data_length (size : Nat) (unread : List Byte) (buf_len : Nat) :
    (cstr (read_data size unread buf_len).1).length + (read_data size unread buf_len).2.length ≤
      unread.length := by
  have shorter := (List.takeWhile_sublist (fun byte => byte != 0)
    (l := (read_data size unread buf_len).1)).length_le
  have split := congrArg List.length (Framing.read_data_split size unread buf_len)
  rw [List.length_append] at split
  unfold cstr
  omega

theorem header_loop_length (plan : List Nat) (buffer unread : List Byte) :
    (header_loop buffer unread plan).2.pending.length ≤ buffer.length + unread.length ∧
      ∀ http, (header_loop buffer unread plan).1 = .complete http →
        (header_loop buffer unread plan).2.pending.length + 4 ≤
          buffer.length + unread.length := by
  induction plan generalizing buffer unread with
  | nil =>
      unfold header_loop
      cases cut : cut_header buffer with
      | none => exact ⟨by simp [Conn.pending], fun _ complete => by cases complete⟩
      | some parts =>
          obtain ⟨less, header⟩ := cut_length buffer parts.2 parts.1 cut
          simp only [Conn.pending, List.length_append]
          exact ⟨by omega, fun http complete => by have := header http complete; omega⟩
  | cons size later ih =>
      unfold header_loop
      cases cut : cut_header buffer with
      | some parts =>
          obtain ⟨less, header⟩ := cut_length buffer parts.2 parts.1 cut
          simp only [Conn.pending, List.length_append]
          exact ⟨by omega, fun http complete => by have := header http complete; omega⟩
      | none =>
          dsimp only
          split
          · exact ⟨by simp [Conn.pending], fun _ complete => by cases complete⟩
          · have taken := read_data_length size unread readBufSize
            obtain ⟨less, header⟩ := ih (buffer ++ cstr (read_data size unread readBufSize).1)
              (read_data size unread readBufSize).2
            rw [List.length_append] at less header
            exact ⟨by omega, fun http complete => by have := header http complete; omega⟩

theorem body_loop_length (plan : List Nat) (buf_len : Int) (content : List Byte) (left : Int)
    (unread : List Byte) :
    (body_loop buf_len content left unread plan).2.pending.length ≤ unread.length := by
  induction plan generalizing content left unread with
  | nil =>
      unfold body_loop
      split <;> exact le_rfl
  | cons size later ih =>
      unfold body_loop
      split
      · dsimp only
        split
        · exact le_rfl
        · have taken := read_data_length size unread (min left.toNat readBufSize)
          have less := ih (content ++ cstr (read_data size unread (min left.toNat readBufSize)).1)
            (left - (read_data size unread (min left.toNat readBufSize)).1.length)
            (read_data size unread (min left.toNat readBufSize)).2
          omega
      · exact le_rfl

theorem readn_length (conn : Conn) (length : Int) :
    (readn_timeout conn length).2.pending.length ≤ conn.pending.length := by
  unfold readn_timeout
  dsimp only
  split
  · split
    · rename_i rest taken
      obtain ⟨_, total⟩ := substr_length conn.read_buf rest length taken
      simp only [Conn.pending, List.length_append]
      omega
    · exact le_rfl
  · have less := body_loop_length conn.plan length conn.read_buf
      (toInt (length - conn.read_buf.length)) conn.unread
    simp only [Conn.pending, List.length_append] at less ⊢
    omega

/-! The bound. -/

/-- The steps a thread has before it until it is idle, with what it gives away then: a
descriptor to epoll counts 6, a worker to the list 4. -/
def ahead (stopping : Bool) : Receiver → Nat
  | .exited => 0
  | .locked => if stopping then 10 else 1
  | .idle => 2
  | .flagged _ _ | .accepting => 3
  | .failing _ _ => 4
  | .receiving _ _ => 5
  | .dispatched _ => 6
  | .submitted _ | .rejecting _ _ => 9
  | .inserted _ => 10
  | .counted _ => 11
  | .accepted _ => 12
  | .submitting _ _ _ _ => 14
  | .parsed _ _ _ _ => 15

def toServe : Loader → Nat
  | .finished => 0
  | .waiting => 1
  | .replied _ => 2
  | .working _ => 3

def retained (state : State R L) (hdle : HandleId) : Nat :=
  match state.handles hdle with
  | none => 0
  | some value => 3 * value.read_buf.length + if state.interest value.fd then 6 else 0

def other (config : Config) (fds : List Fd) : Nat :=
  fds.countP fun fd => fd = config.listen ∨ fd = config.pipe_read

def input (state : State R L) : Nat :=
  3 * (∑ conn ∈ Finset.range state.nextConn, (state.unread conn).length) +
    ∑ hdle ∈ Finset.range state.nextHandle, retained state hdle

def threads [Fintype R] (state : State R L) : Nat :=
  ∑ receiver, ahead state.stop_task (state.receivers receiver)

def service [Fintype L] (state : State R L) : Nat :=
  4 * state.task_list.length + (∑ loader, toServe (state.loaders loader)) +
    if state.alive then 1 else 0

def potential [Fintype R] [Fintype L] (config : Config) (state : State R L) : Nat :=
  input state + threads state + service state + 3 * other config (pending state)

theorem sum_range_change (value next : Nat → Nat) (bound key : Nat) (inside : key < bound)
    (others : ∀ index, index ≠ key → next index = value index) :
    (∑ index ∈ Finset.range bound, next index) + value key =
      (∑ index ∈ Finset.range bound, value index) + next key := by
  have member : key ∈ Finset.range bound := Finset.mem_range.mpr inside
  have rest : ∑ index ∈ (Finset.range bound).erase key, next index =
      ∑ index ∈ (Finset.range bound).erase key, value index :=
    Finset.sum_congr rfl fun index there => others index (Finset.ne_of_mem_erase there)
  rw [← Finset.add_sum_erase _ next member, ← Finset.add_sum_erase _ value member, rest]
  omega

section Step
variable [DecidableEq R] [DecidableEq L] {config : Config} {table : Fd → Stage R}
  {state : State R L}

/-! What a step does to the descriptors and the buffers. -/

omit [DecidableEq R] [DecidableEq L] in
theorem input_same (after : State R L)
    (same : (after.nextConn, after.unread, after.nextHandle, after.handles, after.interest) =
      (state.nextConn, state.unread, state.nextHandle, state.handles, state.interest)) :
    input after = input state := by
  simp only [Prod.mk.injEq] at same
  obtain ⟨nextConn, unread, nextHandle, handles, interest⟩ := same
  unfold input retained
  rw [nextConn, unread, nextHandle, handles, interest]

omit [DecidableEq R] [DecidableEq L] in
theorem live_below (linked : Linked config table state) (hdle : HandleId) (value : SocketHandle)
    (live : state.handles hdle = some value) : hdle < state.nextHandle := by
  by_contra fresh
  rw [linked.freshHandle hdle (Nat.not_lt.mp fresh)] at live
  cases live

omit [DecidableEq R] [DecidableEq L] in
/-- One handle changes, and what epoll watches changes for its descriptor at most. -/
theorem input_handle (linked : Linked config table state) (after : State R L) (hdle : HandleId)
    (old : SocketHandle) (live : state.handles hdle = some old)
    (same : (after.nextConn, after.unread, after.nextHandle) =
      (state.nextConn, state.unread, state.nextHandle))
    (handles : ∀ index, index ≠ hdle → after.handles index = state.handles index)
    (interest : ∀ fd, fd ≠ old.fd → after.interest fd = state.interest fd) :
    input after + retained state hdle = input state + retained after hdle := by
  simp only [Prod.mk.injEq] at same
  obtain ⟨nextConn, unread, nextHandle⟩ := same
  have change := sum_range_change (retained state) (retained after) state.nextHandle hdle
    (live_below linked hdle old live) (by
      intro index apart
      unfold retained
      rw [handles index apart]
      cases found : state.handles index with
      | none => rfl
      | some value =>
          have other : value.fd ≠ old.fd :=
            fun fd => apart (linked.same index hdle value old found live fd)
          dsimp only
          rw [interest value.fd other])
  unfold input
  rw [nextConn, unread, nextHandle]
  omega

omit [DecidableEq R] [DecidableEq L] in
theorem input_read (linked : Linked config table state) (hdle : HandleId) (value : SocketHandle)
    (conn : ConnId) (left : Conn) (live : state.handles hdle = some value)
    (file : state.files value.fd = some (.conn conn)) :
    input (state.after hdle value conn left) +
        3 * (value.read_buf.length + (state.unread conn).length) =
      input state + 3 * left.pending.length := by
  obtain ⟨id, stage, there⟩ := linked.connection hdle value live
  rw [file] at there
  cases there
  have bytes := sum_range_change (fun conn => (state.unread conn).length)
    (fun index => (Function.update state.unread conn left.unread index).length) state.nextConn conn
    (linked.freshConn value.fd conn stage)
    (by intro index apart; simp only [Function.update_of_ne apart])
  have buffers := sum_range_change (retained state) (retained (state.after hdle value conn left))
    state.nextHandle hdle (live_below linked hdle value live) (by
      intro index apart
      simp only [retained, State.after, State.put, Function.update_of_ne apart]
      rfl)
  have before : retained state hdle =
      3 * value.read_buf.length + if state.interest value.fd then 6 else 0 := by
    simp only [retained, live]
  have now : retained (state.after hdle value conn left) hdle =
      3 * left.read_buf.length + if state.interest value.fd then 6 else 0 := by
    simp only [retained, State.after, State.put, Function.update_self]
    rfl
  rw [before, now] at buffers
  simp only [Function.update_self] at bytes
  have next : (state.after hdle value conn left).nextHandle = state.nextHandle := rfl
  unfold input
  rw [next]
  simp only [Conn.pending, List.length_append]
  simp only [State.after, State.put] at bytes buffers ⊢
  omega

omit [DecidableEq R] [DecidableEq L] in
/-- A complete header takes its terminator's four bytes along. -/
theorem input_header (linked : Linked config table state) (hdle : HandleId)
    (value : SocketHandle) (conn : ConnId) (plan : List Nat) (result : HeaderResult)
    (left : Conn) (live : state.handles hdle = some value)
    (file : state.files value.fd = some (.conn conn))
    (ran : read_http_header_timeout ⟨value.read_buf, state.unread conn, plan⟩ = (result, left)) :
    input (state.after hdle value conn left) ≤ input state ∧
      ∀ http, result = .complete http →
        input (state.after hdle value conn left) + 12 ≤ input state := by
  have taken := input_read linked hdle value conn left live file
  have less := header_loop_length plan value.read_buf (state.unread conn)
  unfold read_http_header_timeout at ran
  rw [ran] at less
  obtain ⟨fewer, terminator⟩ := less
  dsimp only at fewer terminator
  refine ⟨by omega, ?_⟩
  intro http complete
  have whole := terminator http complete
  omega

omit [DecidableEq R] [DecidableEq L] in
theorem input_body (linked : Linked config table state) (hdle : HandleId)
    (value : SocketHandle) (conn : ConnId) (plan : List Nat) (length : Int) (result : BodyResult)
    (left : Conn) (live : state.handles hdle = some value)
    (file : state.files value.fd = some (.conn conn))
    (ran : readn_timeout ⟨value.read_buf, state.unread conn, plan⟩ length = (result, left)) :
    input (state.after hdle value conn left) ≤ input state := by
  have taken := input_read linked hdle value conn left live file
  have less := readn_length ⟨value.read_buf, state.unread conn, plan⟩ length
  rw [ran] at less
  simp only [Conn.pending, List.length_append] at less taken
  omega

omit [DecidableEq R] [DecidableEq L] in
theorem input_put (linked : Linked config table state) (hdle : HandleId)
    (old next : SocketHandle) (live : state.handles hdle = some old)
    (same : (next.fd, next.read_buf) = (old.fd, old.read_buf)) :
    input (state.put hdle next) = input state := by
  have change := input_handle linked (state.put hdle next) hdle old live rfl
    (fun index apart => Function.update_of_ne apart ..) (fun _ _ => rfl)
  simp only [Prod.mk.injEq] at same
  have kept : retained (state.put hdle next) hdle = retained state hdle := by
    simp only [retained, State.put, Function.update_self, live, same.1, same.2]
  omega

omit [DecidableEq R] [DecidableEq L] in
theorem input_add (linked : Linked config table state) (receiver : R) (fd : Fd)
    (hdle : HandleId) (conn : ConnId) (stage : table fd = .held receiver hdle conn) :
    input (add_input_fd state fd) ≤ input state + 6 := by
  obtain ⟨value, live, here, _⟩ := linked.entry fd hdle (by rw [stage]; rfl)
  have file : state.files fd = some (.conn conn) := by rw [linked.file, stage]; rfl
  rw [add_open state fd _ file]
  have change := input_handle linked
    { state with interest := Function.update state.interest fd true } hdle value live rfl
    (fun _ _ => rfl) (fun other apart => Function.update_of_ne (here ▸ apart) ..)
  have grown : retained { state with interest := Function.update state.interest fd true } hdle ≤
      retained state hdle + 6 := by
    simp only [retained, live]
    split <;> split <;> omega
  omega

omit [DecidableEq R] [DecidableEq L] in
theorem input_del (linked : Linked config table state) (fd : Fd)
    (client : fd ≠ config.listen ∧ fd ≠ config.pipe_read) (watched : state.interest fd = true) :
    input (del_input_fd state fd) + 6 = input state := by
  obtain ⟨hdle, conn, stage⟩ : ∃ hdle conn, table fd = .armed hdle conn := by
    rw [linked.interest] at watched
    cases stage : table fd with
    | armed hdle conn => exact ⟨hdle, conn, rfl⟩
    | listening => exact absurd ((linked.listening fd).mp stage) client.1
    | waking => exact absurd ((linked.waking fd).mp stage) client.2
    | _ => simp [stage, Stage.place] at watched
  obtain ⟨value, live, here, _⟩ := linked.entry fd hdle (by rw [stage]; rfl)
  have change := input_handle linked (del_input_fd state fd) hdle value live rfl
    (fun _ _ => rfl) (fun other apart => Function.update_of_ne (here ▸ apart) ..)
  have before : retained state hdle = 3 * value.read_buf.length + 6 := by
    simp only [retained, live, here, watched, ↓reduceIte]
  have now : retained (del_input_fd state fd) hdle = 3 * value.read_buf.length := by
    simp [retained, del_input_fd, live, here]
  omega

omit [DecidableEq R] [DecidableEq L] in
theorem input_released (linked : Linked config table state) (hdle : HandleId)
    (value : SocketHandle) (next : State R L) (live : state.handles hdle = some value)
    (released : Released state hdle value next) : input next ≤ input state := by
  cases released with
  | kept still =>
      exact (input_put linked hdle value { value with ref := value.ref - 1 } live rfl).le
  | closed last failed =>
      have change := input_handle linked
        { del_input_fd state value.fd with
          handles := Function.update state.handles hdle none
          files := Function.update state.files value.fd none
          m_fd_set := state.m_fd_set.erase value.fd
          now_connections := state.now_connections - 1
          deleted := hdle :: state.deleted } hdle value live rfl
        (fun index apart => Function.update_of_ne apart ..)
        (fun other apart => Function.update_of_ne apart ..)
      have gone : retained { del_input_fd state value.fd with
          handles := Function.update state.handles hdle none
          files := Function.update state.files value.fd none
          m_fd_set := state.m_fd_set.erase value.fd
          now_connections := state.now_connections - 1
          deleted := hdle :: state.deleted } hdle = 0 := by
        simp only [retained, Function.update_self]
      omega

omit [DecidableEq R] [DecidableEq L] in
theorem input_create (linked : Linked config table state) (receiver : R) (fd : Fd)
    (place : state.receivers receiver = .counted fd) :
    input (create_handle state fd LISTEN_PORT_1) = input state := by
  obtain ⟨conn, stage⟩ := place ▸ linked.owners receiver
  have unwatched : state.interest fd = false := by rw [linked.interest, stage]; rfl
  rw [linked.created receiver fd place]
  unfold input
  have others : ∑ hdle ∈ Finset.range state.nextHandle,
        retained { state.put state.nextHandle ⟨fd, 0, LISTEN_PORT_1, []⟩ with
          nextHandle := state.nextHandle + 1
          m_fd_set := state.m_fd_set.insert fd state.nextHandle } hdle =
      ∑ hdle ∈ Finset.range state.nextHandle, retained state hdle := by
    refine Finset.sum_congr rfl ?_
    intro hdle member
    have old : hdle ≠ state.nextHandle := (Finset.mem_range.mp member).ne
    simp only [retained, State.put, Function.update_of_ne old]
    rfl
  have new : retained { state.put state.nextHandle ⟨fd, 0, LISTEN_PORT_1, []⟩ with
      nextHandle := state.nextHandle + 1
      m_fd_set := state.m_fd_set.insert fd state.nextHandle } state.nextHandle = 0 := by
    simp [retained, State.put, unwatched]
  change 3 * _ + ∑ hdle ∈ Finset.range (state.nextHandle + 1), _ = _
  rw [Finset.sum_range_succ, others, new]
  rfl

/-! What a step does to the batch, the threads and the list. -/

theorem take_last (events : List Fd) (num : Int) (fd : Fd) (positive : 0 < num)
    (event : events[(num - 1).toNat]? = some fd) :
    events.take num.toNat = events.take (num - 1).toNat ++ [fd] := by
  have size : num.toNat = (num - 1).toNat + 1 := by omega
  rw [size, List.take_add_one, event]
  rfl

omit [DecidableEq R] [DecidableEq L] in
/-- A new batch that no client has a part in has the pipe in it at most. -/
theorem other_readable (linked : Linked config table state) (batch : List Fd)
    (once : batch.Nodup) (readable : ∀ fd ∈ batch, Readable state fd) :
    other config batch ≤ if state.stop_task then 1 else 0 := by
  have only (fd : Fd) (member : fd ∈ batch) (special : fd = config.listen ∨ fd = config.pipe_read) :
      fd = config.pipe_read ∧ state.stop_task = true := by
    have file := linked.file fd
    rcases readable fd member with ⟨conn, there, _⟩ | ⟨there, stopping⟩ <;> rw [there] at file
    · rcases special with same | same
      · rw [(linked.listening fd).mpr same] at file
        cases file
      · rw [(linked.waking fd).mpr same] at file
        cases file
    · rcases special with same | same
      · rw [(linked.listening fd).mpr same] at file
        cases file
      · exact ⟨same, stopping⟩
  have fewer : other config batch ≤ batch.count config.pipe_read := by
    refine List.countP_mono_left ?_
    intro fd member special
    simpa using (only fd member (of_decide_eq_true special)).1
  have single := List.nodup_iff_count_le_one.mp once config.pipe_read
  split
  · omega
  · rename_i going
    have zero : other config batch = 0 := by
      refine List.countP_eq_zero.mpr ?_
      intro fd member special
      exact going (only fd member (of_decide_eq_true special)).2
    omega

omit [DecidableEq R] [DecidableEq L] in
theorem fetched_other (linked : Linked config table state) (waited : Waited) (receiver : R)
    (events : List Fd) (num : Int) (fd : Fd) (own : Own state (.wait receiver waited))
    (fetches : fetch state waited = some (events, num)) (found : ¬ num < 0)
    (event : events[(num - 1).toNat]? = some fd) :
    other config (events.take (num - 1).toNat) + other config [fd] ≤
      other config (pending state) + if state.stop_task then 1 else 0 := by
  unfold fetch at fetches
  split at fetches
  · rename_i left
    cases fetches
    unfold pending
    rw [take_last _ _ fd left event]
    unfold other
    rw [List.countP_append]
    omega
  · rename_i spent
    rcases own with left | ⟨batch, same, readable⟩
    · exact absurd left spent
    subst same
    dsimp only at fetches
    split at fetches
    · rename_i reported
      cases fetches
      have size := List.length_pos_iff.mpr reported.1
      have whole := take_last events events.length fd (by omega) event
      rw [Int.toNat_natCast, List.take_length] at whole
      have few := other_readable linked events reported.2.2.1 readable
      rw [whole] at few
      unfold other at few ⊢
      rw [List.countP_append] at few
      omega
    · cases fetches

omit [DecidableEq R] [DecidableEq L] in
/-- A wait without a client does not fail: what it takes is left or has been reported. -/
theorem own_fetched (waited : Waited) (receiver : R) (events : List Fd) (num : Int)
    (own : Own state (.wait receiver waited)) (fetches : fetch state waited = some (events, num)) :
    ¬ num < 0 := by
  unfold fetch at fetches
  split at fetches
  · cases fetches
    omega
  · rename_i spent
    rcases own with left | ⟨batch, same, _⟩
    · exact absurd left spent
    · subst same
      dsimp only at fetches
      split at fetches
      · cases fetches
        omega
      · cases fetches

omit [DecidableEq L] in
theorem threads_at [Fintype R] (after : State R L) (acting : R) (place : Receiver)
    (receivers : after.receivers = Function.update state.receivers acting place)
    (stop : after.stop_task = state.stop_task) :
    threads after + ahead state.stop_task (state.receivers acting) =
      threads state + ahead state.stop_task place := by
  unfold threads
  rw [receivers, stop]
  exact Transition.sum_update (ahead state.stop_task) state.receivers acting place

omit [DecidableEq L] in
theorem thread_settles [Fintype R] [Fintype L] (next : State R L) (acting : R)
    (old place : Receiver) (here : state.receivers acting = old)
    (less : ahead state.stop_task place + input next < ahead state.stop_task old + input state)
    (same : (next.receivers, next.stop_task, next.task_list, next.loaders, next.alive,
        pending next) =
      (state.receivers, state.stop_task, state.task_list, state.loaders, state.alive,
        pending state)) :
    potential config (next.at acting place) < potential config state := by
  simp only [Prod.mk.injEq] at same
  obtain ⟨receivers, stop, tasks, loaders, alive, batch⟩ := same
  have moves := threads_at (next.at acting place) acting place
    (by rw [← receivers]; rfl) stop
  have tables : input (next.at acting place) = input next := input_same _ rfl
  have rest : service (next.at acting place) = service state := by
    unfold service
    rw [← tasks, ← loaders, ← alive]
    rfl
  have events : pending (next.at acting place) = pending state := batch
  rw [here] at moves
  unfold potential
  rw [rest, tables, events]
  omega

omit [DecidableEq L] in
theorem thread_moves [Fintype R] [Fintype L] (next : State R L) (acting : R)
    (old place : Receiver) (here : state.receivers acting = old)
    (less : ahead state.stop_task place < ahead state.stop_task old)
    (tables : (next.nextConn, next.unread, next.nextHandle, next.handles, next.interest) =
      (state.nextConn, state.unread, state.nextHandle, state.handles, state.interest))
    (same : (next.receivers, next.stop_task, next.task_list, next.loaders, next.alive,
        pending next) =
      (state.receivers, state.stop_task, state.task_list, state.loaders, state.alive,
        pending state)) :
    potential config (next.at acting place) < potential config state := by
  refine thread_settles next acting old place here ?_ same
  rw [input_same next tables]
  exact Nat.add_lt_add_right less _

omit [DecidableEq L] in
/-- A thread that finds `stop_task` false goes on with the mutex. -/
theorem lock_settles [Fintype R] [Fintype L] (acting : R)
    (place : state.receivers acting = .idle) (going : state.stop_task = false) :
    potential config { state.at acting .locked with epoll_mutex := some acting } <
      potential config state :=
  thread_moves { state with epoll_mutex := some acting } acting _ .locked place
    (by simp [ahead, going]) rfl rfl

omit [DecidableEq L] in
/-- A thread that gives its descriptor back to epoll. -/
theorem rearm_settles [Fintype R] [Fintype L] (linked : Linked config table state) (acting : R)
    (fd : Fd) (hdle : HandleId) (conn : ConnId) (invalid : HandleId → Nat)
    (stage : table fd = .held acting hdle conn) (old place : Receiver)
    (here : state.receivers acting = old)
    (less : ahead state.stop_task place + 6 < ahead state.stop_task old) :
    potential config { (add_input_fd state fd).at acting place with invalid := invalid } <
      potential config state := by
  have more := input_add linked acting fd hdle conn stage
  have still : input { add_input_fd state fd with invalid := invalid } =
      input (add_input_fd state fd) := input_same _ rfl
  refine thread_settles { add_input_fd state fd with invalid := invalid } acting old place here ?_
    (by rw [add_input_fd_eq]; rfl)
  rw [still]
  omega

omit [DecidableEq L] in
theorem submit_settles [Fintype R] [Fintype L] (after : State R L) (acting : R)
    (old place : Receiver) (worker : Worker) (here : state.receivers acting = old)
    (less : ahead state.stop_task place + 4 < ahead state.stop_task old)
    (receivers : after.receivers = Function.update state.receivers acting place)
    (tasks : after.task_list = state.task_list ++ [worker])
    (tables : (after.nextConn, after.unread, after.nextHandle, after.handles, after.interest) =
      (state.nextConn, state.unread, state.nextHandle, state.handles, state.interest))
    (same : (after.stop_task, after.loaders, after.alive, pending after) =
      (state.stop_task, state.loaders, state.alive, pending state)) :
    potential config after < potential config state := by
  simp only [Prod.mk.injEq] at same
  obtain ⟨stop, loaders, alive, batch⟩ := same
  have moves := threads_at after acting place receivers stop
  rw [here] at moves
  unfold potential service
  rw [input_same after tables, tasks, loaders, alive, batch, List.length_append,
    List.length_singleton]
  omega

omit [DecidableEq R] in
theorem loader_settles [Fintype R] [Fintype L] (after : State R L) (acting : L) (place : Loader)
    (less : 4 * after.task_list.length + toServe place <
      4 * state.task_list.length + toServe (state.loaders acting))
    (fewer : input after ≤ input state)
    (loaders : after.loaders = Function.update state.loaders acting place)
    (same : (after.stop_task, after.receivers, after.alive, pending after) =
      (state.stop_task, state.receivers, state.alive, pending state)) :
    potential config after < potential config state := by
  simp only [Prod.mk.injEq] at same
  obtain ⟨stop, receivers, alive, batch⟩ := same
  have moves := Transition.sum_update toServe state.loaders acting place
  unfold potential service threads
  rw [stop, receivers, loaders, alive, batch]
  omega

omit [DecidableEq L] in
theorem wait_settles [Fintype R] [Fintype L] (linked : Linked config table state)
    (waited : Waited) (receiver : R) (events : List Fd) (num : Int) (fd : Fd)
    (own : Own state (.wait receiver waited))
    (fetches : fetch state waited = some (events, num)) (found : ¬ num < 0)
    (event : events[(num - 1).toNat]? = some fd) (place : state.receivers receiver = .locked)
    (after : State R L) (next : Receiver)
    (receivers : after.receivers = Function.update state.receivers receiver next)
    (paid : ahead state.stop_task next + input after ≤ input state + 3 * other config [fd])
    (same : (after.stop_task, after.task_list, after.loaders, after.alive, pending after) =
      (state.stop_task, state.task_list, state.loaders, state.alive,
        events.take (num - 1).toNat)) :
    potential config after < potential config state := by
  simp only [Prod.mk.injEq] at same
  obtain ⟨stop, tasks, loaders, alive, batch⟩ := same
  have moves := threads_at after receiver next receivers stop
  have left := fetched_other linked waited receiver events num fd own fetches found event
  have price : ahead state.stop_task .locked = if state.stop_task then 10 else 1 := rfl
  rw [place, price] at moves
  unfold potential service
  rw [tasks, loaders, alive, batch]
  split at moves <;> split at left <;> simp_all <;> omega

omit [DecidableEq R] [DecidableEq L] in
theorem flush_settles [Fintype R] [Fintype L] (alive : state.alive = true) :
    potential config { state with alive := false } < potential config state := by
  have still : input { state with alive := false } = input state := input_same _ rfl
  unfold potential service
  rw [still, alive]
  simp only [threads]
  change _ + _ + (_ + _ + 0) + 3 * other config (pending state) < _
  simp only [↓reduceIte]
  omega

theorem step_settles [Fintype R] [Fintype L] (linked : Linked config table state)
    (action : Action R L) (after : State R L) (own : Own state action)
    (stepped : step config state action = some after) :
    potential config after < potential config state := by
  have moved := step_moved config state after action stepped
  cases moved with
  | arrive | stop => exact own.elim
  | acceptSome => cases own
  | exit place => exact thread_moves state _ _ .exited place (by simp [ahead]) rfl rfl
  | @lock receiver place free =>
      refine lock_settles receiver place ?_
      cases stopping : state.stop_task with
      | false => rfl
      | true =>
          simp only [step, lock, place, stopping, ↓reduceIte, Option.some.injEq] at stepped
          have same := congrFun (congrArg State.receivers stepped) receiver
          simp [State.at] at same
  | waitFailed next ends place fetches negative =>
      exact absurd negative (own_fetched _ _ _ _ own fetches)
  | @waitListen receiver waited events num place fetches found event =>
      refine wait_settles linked _ _ _ _ _ own fetches found event place _ .accepting rfl ?_ rfl
      have still : input ((state.fetched events num).at receiver .accepting) = input state :=
        input_same _ rfl
      simp [still, ahead, other]
      omega
  | @waitPipe receiver waited events num place fetches found event =>
      refine wait_settles linked _ _ _ _ _ own fetches found event place _ .idle rfl ?_ rfl
      have still : input ((state.fetched events num).at receiver .idle).unlock = input state :=
        input_same _ rfl
      simp [still, ahead, other]
      omega
  | @waitClient receiver waited events num fd place fetches found event client =>
      refine wait_settles linked _ _ _ _ _ own fetches found event place _ (.dispatched fd) rfl
        ?_ rfl
      have watched := (fetched_event linked waited events num fd fetches event found).1
      have less := input_del linked fd client watched
      have still : input ((del_input_fd (state.fetched events num) fd).at receiver
          (.dispatched fd)).unlock = input (del_input_fd state fd) := input_same _ rfl
      rw [still]
      simp only [ahead]
      omega
  | acceptNone place =>
      exact thread_moves state.unlock _ _ .idle place (by simp [ahead]) rfl rfl
  | count place =>
      exact thread_moves { state with now_connections := state.now_connections + 1 } _ _
        (.counted _) place (by simp [ahead]) rfl rfl
  | @create receiver fd place =>
      refine thread_settles _ receiver _ (.inserted fd) place ?_ (by rw [create_handle_eq]; rfl)
      rw [input_create linked receiver fd place]
      exact Nat.add_lt_add_right (by simp [ahead]) _
  | @add receiver fd place =>
      obtain ⟨hdle, conn, stage⟩ := place ▸ linked.owners receiver
      exact rearm_settles linked receiver fd hdle conn (add_input_fd state fd).invalid stage _
        .accepting place (by simp [ahead])
  | @acquire receiver fd hdle value place found live =>
      refine thread_settles _ receiver _ (.receiving fd hdle) place ?_ rfl
      rw [input_put linked hdle value { value with ref := value.ref + 1 } live rfl]
      exact Nat.add_lt_add_right (by simp [ahead]) _
  | @headerComplete receiver plan fd hdle value conn http left place live file ran =>
      refine thread_settles _ receiver _ (.parsed fd hdle http conn) place ?_ rfl
      have less := (input_header linked hdle value conn plan _ left live file ran).2 http rfl
      simp only [ahead]
      omega
  | @headerError receiver plan fd hdle value conn left place live file ran =>
      refine thread_settles _ receiver _ (.failing fd hdle) place ?_ rfl
      have less := (input_header linked hdle value conn plan _ left live file ran).1
      simp only [ahead]
      omega
  | bodyRejected place =>
      exact thread_moves state _ _ (.rejecting _ _) place (by simp [ahead]) rfl rfl
  | @bodyComplete receiver plan fd hdle http origin value conn length request left place accepted
      live file ran =>
      refine thread_settles _ receiver _ (.submitting fd hdle request origin) place ?_ rfl
      have less := input_body linked hdle value conn plan length _ left live file ran
      simp only [ahead]
      omega
  | @bodyShort receiver plan fd hdle http origin value conn length buf_len request left place
      accepted live file ran short =>
      refine thread_settles _ receiver _ (.failing fd hdle) place ?_ rfl
      have less := input_body linked hdle value conn plan length _ left live file ran
      simp only [ahead]
      omega
  | @submit receiver fd hdle request conn place alive =>
      exact submit_settles _ receiver _ (.submitted fd) _ place (by simp [ahead]) rfl rfl rfl rfl
  | submitFlushed place flushed =>
      exact thread_moves { state with nextWorker := state.nextWorker + 1 } _ _ (.submitted _) place
        (by simp [ahead]) rfl rfl
  | @rearmSubmitted receiver fd place =>
      obtain ⟨hdle, conn, stage⟩ := place ▸ linked.owners receiver
      exact rearm_settles linked receiver fd hdle conn (add_input_fd state fd).invalid stage _
        .idle place (by simp [ahead])
  | @rearmRejected receiver fd hdle place =>
      obtain ⟨conn, stage⟩ := place ▸ linked.owners receiver
      exact rearm_settles linked receiver fd hdle conn _ stage _ .idle place (by simp [ahead])
  | @flag receiver fd hdle value place live =>
      refine thread_settles _ receiver _ (.flagged fd hdle) place ?_ rfl
      rw [input_put linked hdle value { value with flag := value.flag ||| ERROR_SOCKET } live rfl]
      exact Nat.add_lt_add_right (by simp [ahead]) _
  | @drop receiver fd hdle value next place live released =>
      refine thread_settles next receiver _ .idle place ?_ (by cases released <;> rfl)
      have fewer := input_released linked hdle value next live released
      simp only [ahead]
      omega
  | @get loader worker rest place alive queued =>
      refine loader_settles _ loader (.working worker) ?_ (input_same _ rfl).le rfl rfl
      rw [place, queued, List.length_cons]
      simp only [toServe]
      omega
  | @getNull loader place flushed =>
      refine loader_settles _ loader .finished ?_ (input_same _ rfl).le rfl rfl
      rw [place]
      simp [toServe, State.loading]
  | @send loader timestr headerPlan bodyPlan worker value conn place live file =>
      refine loader_settles _ loader (.replied worker) ?_ (input_same _ rfl).le rfl rfl
      rw [place]
      simp [toServe, State.loading]
  | @release loader worker value next place live released =>
      have fewer := input_released linked worker.handle value next live released
      have still : input (next.loading loader .waiting) = input next := input_same _ rfl
      refine loader_settles _ loader .waiting ?_ (still ▸ fewer) ?_ ?_
      · rw [place]
        cases released <;> simp [toServe, State.loading, State.put, del_input_fd]
      · cases released <;> rfl
      · cases released <;> rfl
  | flush exited => exact flush_settles own

end Step

section Runs
variable [DecidableEq R] [Fintype R] [DecidableEq L] [Fintype L] {config : Config}

/-- However its threads take turns, the server takes no more steps of its own than
`potential` says, and it can go on until none is left. -/
theorem comes_to_rest (state : State R L) (reached : Running config state) :
    (∀ actions after, Transition.RanWhile (step config) Own state actions after →
      actions.length + potential config after ≤ potential config state) ∧
    ∃ actions after, Transition.RanWhile (step config) Own state actions after ∧
      Rests config after := by
  have keeps (before : State R L) (action : Action R L) (after : State R L)
      (earlier : Running config before) (ran : step config before action = some after) :
      Running config after := .next action earlier trivial ran
  have lowers (before : State R L) (action : Action R L) (after : State R L)
      (earlier : Running config before) (own : Own before action)
      (ran : step config before action = some after) :
      potential config after < potential config before := by
    obtain ⟨table, linked⟩ := reachable_linked before earlier
    exact step_settles linked action after own ran
  constructor
  · intro actions after ran
    exact Transition.RanWhile.bounded (potential config) (Running config) keeps lowers reached ran
  · exact Transition.RanWhile.ends (potential config) (Running config) keeps lowers state reached

end Runs

/-- A request has arrived that no thread has looked at. -/
theorem comes_to_rest_arrived : ∃ state : State (Fin 2) (Fin 1),
    potential sample state = 144 ∧
    (∀ actions after, Transition.RanWhile (step sample) Own state actions after →
      actions.length + potential sample after ≤ potential sample state) ∧
    ∃ actions after, Transition.RanWhile (step sample) Own state actions after ∧
      Rests sample after := by
  obtain ⟨state, reached, shown⟩ := Transition.exec_reaches
    (.start rfl : Running sample (State.initial sample (Fin 2) (Fin 1)))
    (connect 0 5 ++ [.arrive 0 (text "POST /request HTTP/1.1\r\nContent-Length:0\r\n\r\n")])
    (fun state => decide (potential sample state = 144))
    (by decide +kernel)
  exact ⟨state, of_decide_eq_true shown, comes_to_rest state reached⟩

end AsrServer.Settling
