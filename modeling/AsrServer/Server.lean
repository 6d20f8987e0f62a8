import Mathlib.Data.List.AList
import AsrServer.ReadPath
import AsrServer.Reply
import AsrServer.Transition

/-!
The running server as a transition system: receiver threads in `Http_Server::svc`
and `recv_request`, loader threads in `Worker_Loader::svc` and
`retrieve_worker`, the kernel's descriptor table and the clients. `R` and `L`
are the threads of the two pools. One action is one mutex-guarded section or
one call into the kernel; `step` is none where an action is not enabled, and
also where the source has no behaviour left: a deleted handle is used, an
assertion fails, or an exception leaves a thread.

A thread that polls and reads sees the bytes that arrive meanwhile, but no other
thread does, so they may as well have arrived before it began: a whole read
loop is one action, its plan saying what each read returns. `::close` frees the
number before `m_fd_set.erase` under the same lock, and an `accept` in between
touches nothing the lock guards, so `release_handle` is one action too.
-/

namespace AsrServer.Server

open Bytes ReadPath Reply

abbrev Fd := Nat
abbrev HandleId := Nat
abbrev ConnId := Nat
abbrev WorkerId := Nat

def LISTEN_PORT_1 : BitVec 32 := 0x00000001
def ERROR_SOCKET : BitVec 32 := 0x00000010
def MAX_EPOLL_EVENT_NUM : Nat := 256

/-- What an open descriptor refers to. Every accepted connection is a new one. -/
inductive File where
  | listen
  | pipe
  | conn (id : ConnId)
  deriving DecidableEq, Repr

/-- `SocketHandle`; `int` members wrap. -/
structure SocketHandle where
  fd : Fd
  ref : BitVec 32
  flag : BitVec 32
  read_buf : List Byte
  deriving DecidableEq, Repr

def SocketHandle.failed (hdle : SocketHandle) : Bool := hdle.flag &&& ERROR_SOCKET != 0

structure Worker where
  id : WorkerId
  handle : HandleId
  conn : ConnId
  request : List Byte
  result : List Byte
  deriving DecidableEq, Repr

/-- Where a thread of `Http_Server` is. From `locked` to `inserted` it holds
`_epoll_mutex`; from `dispatched` to `flagged` it is inside `recv_request`. -/
inductive Receiver where
  | idle
  | locked
  | accepting
  | accepted (fd : Fd)
  | counted (fd : Fd)
  | inserted (fd : Fd)
  | dispatched (fd : Fd)
  | receiving (fd : Fd) (hdle : HandleId)
  | parsed (fd : Fd) (hdle : HandleId) (http : List Byte) (conn : ConnId)
  | submitting (fd : Fd) (hdle : HandleId) (request : List Byte) (conn : ConnId)
  | submitted (fd : Fd)
  | rejecting (fd : Fd) (hdle : HandleId)
  | failing (fd : Fd) (hdle : HandleId)
  | flagged (fd : Fd) (hdle : HandleId)
  | exited
  deriving DecidableEq, Repr

inductive Loader where
  | waiting
  | working (worker : Worker)
  | replied (worker : Worker)
  | finished
  deriving DecidableEq, Repr

/-- The members of the two classes, the kernel's tables and, from `output` on,
what has happened so far. -/
structure State (R L : Type) where
  handles : HandleId → Option SocketHandle
  nextHandle : HandleId
  m_fd_set : AList fun _ : Fd => HandleId
  now_connections : Int
  files : Fd → Option File
  nextConn : ConnId
  unread : ConnId → List Byte
  interest : Fd → Bool
  ready_event : List Fd
  ready_event_num : Int
  epoll_mutex : Option R
  stop_task : Bool
  receivers : R → Receiver
  task_list : List Worker
  alive : Bool
  loaders : L → Loader
  nextWorker : WorkerId
  output : ConnId → List Byte
  sends : ConnId → List Sent
  received : ConnId → List WorkerId
  answered : ConnId → List WorkerId
  invalid : HandleId → Nat
  deleted : List HandleId

/-- What `epoll_wait` returns: a batch, or -1 with `errno` EINTR or another. -/
inductive Waited where
  | events (batch : List Fd)
  | interrupted
  | failed
  deriving DecidableEq, Repr

inductive Action (R L : Type) where
  | lock (receiver : R)
  | wait (receiver : R) (waited : Waited)
  | accept (receiver : R) (new : Option Fd)
  | count (receiver : R)
  | create (receiver : R)
  | add (receiver : R)
  | acquire (receiver : R)
  | readHeader (receiver : R) (plan : List Nat)
  | readBody (receiver : R) (plan : List Nat)
  | submit (receiver : R)
  | rearm (receiver : R)
  | flag (receiver : R)
  | drop (receiver : R)
  | get (loader : L)
  | send (loader : L) (timestr : List Byte) (headerPlan bodyPlan : List WriteRound)
  | release (loader : L)
  | arrive (conn : ConnId) (bytes : List Byte)
  | stop
  | flush

structure Config where
  listen : Fd
  pipe_read : Fd
  distinct : listen ≠ pipe_read
  info : List Byte → Option Int

section Tables
variable {R L : Type}

def State.unlock (state : State R L) : State R L := { state with epoll_mutex := none }

def State.put (state : State R L) (hdle : HandleId) (value : SocketHandle) : State R L :=
  { state with handles := Function.update state.handles hdle (some value) }

/-- `add_input_fd`; the kernel refuses a descriptor that is not open. -/
def add_input_fd (state : State R L) (fd : Fd) : State R L :=
  if (state.files fd).isSome then
    { state with interest := Function.update state.interest fd true }
  else state

def del_input_fd (state : State R L) (fd : Fd) : State R L :=
  { state with interest := Function.update state.interest fd false }

/-- `insert_handle`: `std::map::insert` keeps an entry that is already there. -/
def insert_handle (state : State R L) (fd : Fd) (hdle : HandleId) : State R L :=
  if fd ∈ state.m_fd_set then state
  else { state with m_fd_set := state.m_fd_set.insert fd hdle }

def create_handle (state : State R L) (fd : Fd) (flag : BitVec 32) : State R L :=
  insert_handle
    { state.put state.nextHandle ⟨fd, 0, flag, []⟩ with nextHandle := state.nextHandle + 1 }
    fd state.nextHandle

def release_handle (state : State R L) (hdle : HandleId) : Option (State R L) :=
  match state.handles hdle with
  | none => none
  | some value =>
      -- `release` has lowered the count whichever branch is taken.
      if value.ref - 1 = 0 ∧ value.failed = true then
        let state := del_input_fd state value.fd
        some { state with
          handles := Function.update state.handles hdle none
          files := Function.update state.files value.fd none
          m_fd_set := state.m_fd_set.erase value.fd
          now_connections := state.now_connections - 1
          deleted := hdle :: state.deleted }
      else some (state.put hdle { value with ref := value.ref - 1 })

/-- One batch reports registered descriptors, each at most once. -/
abbrev Reported (state : State R L) (batch : List Fd) : Prop :=
  batch ≠ [] ∧ batch.length ≤ MAX_EPOLL_EVENT_NUM ∧ batch.Nodup ∧
    ∀ fd ∈ batch, state.interest fd = true

/-- `_epoll_ready_event` and its count behind the `if` with `epoll_wait`. -/
def fetch (state : State R L) (waited : Waited) : Option (List Fd × Int) :=
  if 0 < state.ready_event_num then some (state.ready_event, state.ready_event_num)
  else
    match waited with
    | .events batch => if Reported state batch then some (batch, batch.length) else none
    | .interrupted | .failed => some (state.ready_event, -1)

def connected (state : State R L) (hdle : HandleId) : Option (SocketHandle × ConnId) :=
  match state.handles hdle with
  | none => none
  | some value =>
      match state.files value.fd with
      | some (.conn conn) => some (value, conn)
      | _ => none

/-- What a read loop leaves: `_read_buf` and the bytes in the kernel. -/
def State.after (state : State R L) (hdle : HandleId) (value : SocketHandle) (conn : ConnId)
    (left : Conn) : State R L :=
  { state.put hdle { value with read_buf := left.read_buf } with
    unread := Function.update state.unread conn left.unread }

end Tables

section Receivers
variable {R L : Type} [DecidableEq R]

def State.at (state : State R L) (receiver : R) (place : Receiver) : State R L :=
  { state with receivers := Function.update state.receivers receiver place }

/-- The heads of the loop in `svc`: `_stop_task` is looked at on both sides of the
lock. -/
def lock (state : State R L) (receiver : R) : Option (State R L) :=
  if state.receivers receiver = .idle then
    if state.stop_task then some (state.at receiver .exited)
    else if state.epoll_mutex = none then
      some { state.at receiver .locked with epoll_mutex := some receiver }
    else none
  else none

def dispatch (config : Config) (state : State R L) (receiver : R) (fd : Fd) : State R L :=
  if fd = config.listen then state.at receiver .accepting
  else if fd = config.pipe_read then (state.at receiver .idle).unlock
  else ((del_input_fd state fd).at receiver (.dispatched fd)).unlock

def wait (config : Config) (state : State R L) (receiver : R) (waited : Waited) :
    Option (State R L) :=
  if state.receivers receiver = .locked then
    match fetch state waited with
    | none => none
    | some (events, num) =>
        let state := { state with ready_event := events, ready_event_num := num - 1 }
        -- The count goes down even where `epoll_wait` has returned -1.
        if num < 0 then
          some (state.at receiver (if waited = .interrupted then .idle else .exited)).unlock
        else
          match events[(num - 1).toNat]? with
          | none => none
          | some fd => some (dispatch config state receiver fd)
  else none

/-- `accept` gives a number that is not in use, or fails and ends the loop. -/
def accept (state : State R L) (receiver : R) (new : Option Fd) : Option (State R L) :=
  if state.receivers receiver = .accepting then
    match new with
    | none => some (state.at receiver .idle).unlock
    | some fd =>
        if state.files fd = none then
          some { state.at receiver (.accepted fd) with
            files := Function.update state.files fd (some (.conn state.nextConn))
            nextConn := state.nextConn + 1 }
        else none
  else none

def count (state : State R L) (receiver : R) : Option (State R L) :=
  match state.receivers receiver with
  | .accepted fd =>
      some { state.at receiver (.counted fd) with now_connections := state.now_connections + 1 }
  | _ => none

def create (state : State R L) (receiver : R) : Option (State R L) :=
  match state.receivers receiver with
  | .counted fd => some ((create_handle state fd LISTEN_PORT_1).at receiver (.inserted fd))
  | _ => none

def add (state : State R L) (receiver : R) : Option (State R L) :=
  match state.receivers receiver with
  | .inserted fd => some ((add_input_fd state fd).at receiver .accepting)
  | _ => none

/-- `get_handle` and `assert(hdle)`. -/
def acquire (state : State R L) (receiver : R) : Option (State R L) :=
  match state.receivers receiver with
  | .dispatched fd =>
      match state.m_fd_set.lookup fd with
      | none => none
      | some hdle =>
          match state.handles hdle with
          | none => none
          | some value =>
              some ((state.put hdle { value with ref := value.ref + 1 }).at receiver
                (.receiving fd hdle))
  | _ => none

def readHeader (state : State R L) (receiver : R) (plan : List Nat) : Option (State R L) :=
  match state.receivers receiver with
  | .receiving fd hdle =>
      match connected state hdle with
      | none => none
      | some (value, conn) =>
          match read_http_header_timeout ⟨value.read_buf, state.unread conn, plan⟩ with
          | (.complete http, left) =>
              some ((state.after hdle value conn left).at receiver (.parsed fd hdle http conn))
          | (.error, left) =>
              some ((state.after hdle value conn left).at receiver (.failing fd hdle))
          | (.out_of_range, _) => none
  | _ => none

/-- `GetInfo` and, for a header it accepts, `readn_timeout`. -/
def readBody (config : Config) (state : State R L) (receiver : R) (plan : List Nat) :
    Option (State R L) :=
  match state.receivers receiver with
  | .parsed fd hdle http origin =>
      match verdict config.info http with
      | none => some (state.at receiver (.rejecting fd hdle))
      | some length =>
          match connected state hdle with
          | none => none
          | some (value, conn) =>
              match readn_timeout ⟨value.read_buf, state.unread conn, plan⟩ length with
              | (.ret buf_len request, left) =>
                  if buf_len = length then
                    some ((state.after hdle value conn left).at receiver
                      (.submitting fd hdle request origin))
                  else some ((state.after hdle value conn left).at receiver (.failing fd hdle))
              | (.out_of_range, _) => none
  | _ => none

/-- `submit_worker`: a list that is no longer alive does not take the worker. -/
def submit (state : State R L) (receiver : R) : Option (State R L) :=
  match state.receivers receiver with
  | .submitting fd hdle request conn =>
      -- `result` stays empty: nothing fills it before `retrieve_worker`.
      let worker : Worker := ⟨state.nextWorker, hdle, conn, request, []⟩
      let state := { state.at receiver (.submitted fd) with nextWorker := state.nextWorker + 1 }
      if state.alive then
        some { state with
          task_list := state.task_list ++ [worker]
          received := Function.update state.received conn (state.received conn ++ [worker.id]) }
      else some state
  | _ => none

/-- The `add_input_fd` with which `recv_request` returns, behind an accepted
request and behind an invalid package. -/
def rearm (state : State R L) (receiver : R) : Option (State R L) :=
  match state.receivers receiver with
  | .submitted fd => some ((add_input_fd state fd).at receiver .idle)
  | .rejecting fd hdle =>
      some { (add_input_fd state fd).at receiver .idle with
        invalid := Function.update state.invalid hdle (state.invalid hdle + 1) }
  | _ => none

def flag (state : State R L) (receiver : R) : Option (State R L) :=
  match state.receivers receiver with
  | .failing fd hdle =>
      match state.handles hdle with
      | none => none
      | some value =>
          some ((state.put hdle { value with flag := value.flag ||| ERROR_SOCKET }).at receiver
            (.flagged fd hdle))
  | _ => none

def drop (state : State R L) (receiver : R) : Option (State R L) :=
  match state.receivers receiver with
  | .flagged _ hdle => (release_handle state hdle).map fun state => state.at receiver .idle
  | _ => none

end Receivers

section Loaders
variable {R L : Type} [DecidableEq L]

def State.loading (state : State R L) (loader : L) (place : Loader) : State R L :=
  { state with loaders := Function.update state.loaders loader place }

/-- `wait_list_t::get`: the oldest worker, or NULL once the list is flushed. -/
def get (state : State R L) (loader : L) : Option (State R L) :=
  if state.loaders loader = .waiting then
    if state.alive then
      match state.task_list with
      | [] => none
      | worker :: rest => some { state.loading loader (.working worker) with task_list := rest }
    else some (state.loading loader .finished)
  else none

def Worker.reply (worker : Worker) : List Byte :=
  if 0 < worker.result.length then worker.result else defaultEmptyResult

def Worker.sent (worker : Worker) (timestr : List Byte) (headerPlan bodyPlan : List WriteRound) :
    Sent :=
  ⟨generate_http_header timestr worker.reply.length, worker.reply, headerPlan, bodyPlan⟩

/-- `send_result` inside `retrieve_worker`, under the handle's lock. Its return
value is only logged. -/
def send (state : State R L) (loader : L) (timestr : List Byte)
    (headerPlan bodyPlan : List WriteRound) : Option (State R L) :=
  match state.loaders loader with
  | .working worker =>
      match connected state worker.handle with
      | none => none
      | some (_, conn) =>
          let sent := worker.sent timestr headerPlan bodyPlan
          some { state.loading loader (.replied worker) with
            output := Function.update state.output conn (state.output conn ++ sent.written)
            sends := Function.update state.sends conn (state.sends conn ++ [sent])
            answered := Function.update state.answered conn
              (state.answered conn ++ [worker.id]) }
  | _ => none

def release (state : State R L) (loader : L) : Option (State R L) :=
  match state.loaders loader with
  | .replied worker =>
      (release_handle state worker.handle).map fun state => state.loading loader .waiting
  | _ => none

end Loaders

section Step
variable {R L : Type} [DecidableEq R] [Fintype R] [DecidableEq L] (config : Config)

/-- `Worker_Loader::stop`, which `main` calls when all receivers have been joined. -/
def flush (state : State R L) : Option (State R L) :=
  if ∀ receiver, state.receivers receiver = .exited then some { state with alive := false }
  else none

def step (state : State R L) : Action R L → Option (State R L)
  | .lock receiver => lock state receiver
  | .wait receiver waited => wait config state receiver waited
  | .accept receiver new => accept state receiver new
  | .count receiver => count state receiver
  | .create receiver => create state receiver
  | .add receiver => add state receiver
  | .acquire receiver => acquire state receiver
  | .readHeader receiver plan => readHeader state receiver plan
  | .readBody receiver plan => readBody config state receiver plan
  | .submit receiver => submit state receiver
  | .rearm receiver => rearm state receiver
  | .flag receiver => flag state receiver
  | .drop receiver => drop state receiver
  | .get loader => get state loader
  | .send loader timestr headerPlan bodyPlan => send state loader timestr headerPlan bodyPlan
  | .release loader => release state loader
  | .arrive conn bytes =>
      some { state with
        unread := Function.update state.unread conn (state.unread conn ++ bytes) }
  | .stop => some { state with stop_task := true }
  | .flush => flush state

end Step

/-- After `open`: the listening socket and the pipe are registered. -/
def State.initial (config : Config) (R L : Type) : State R L where
  handles := fun _ => none
  nextHandle := 0
  m_fd_set := ∅
  now_connections := 0
  files := fun fd =>
    if fd = config.listen then some .listen
    else if fd = config.pipe_read then some .pipe
    else none
  nextConn := 0
  unread := fun _ => []
  interest := fun fd => fd = config.listen || fd = config.pipe_read
  ready_event := []
  ready_event_num := 0
  epoll_mutex := none
  stop_task := false
  receivers := fun _ => .idle
  task_list := []
  alive := true
  loaders := fun _ => .waiting
  nextWorker := 0
  output := fun _ => []
  sends := fun _ => []
  received := fun _ => []
  answered := fun _ => []
  invalid := fun _ => 0
  deleted := []

end AsrServer.Server
