import AsrServer.Server

/-!
The loop of `Http_Server::svc`, a statement at a time, with what the receiver threads share:
`_stop_task`, `_epoll_mutex`, the array `epoll_wait` fills and `_epoll_ready_event_num`,
which is the result of `epoll_wait`, the number of events left and the index of the next one.
The log, newest entry first, has every return of `epoll_wait` and what the threads do: the reads
of the array, the calls that an event asks for and the ends of the guarded sections.
-/

namespace AsrServer.EventLoop

open Server (Fd Waited Config MAX_EPOLL_EVENT_NUM)

/-- What a thread goes on with behind `pthread_mutex_unlock`. -/
inductive After where
  | leave
  | again
  | recv_request (fd : Fd)
  deriving DecidableEq, Repr

/-- Where a thread is. From `locked` to `unlocking` it holds `_epoll_mutex`. -/
inductive Place where
  | testing
  | entering
  | locked
  | waiting
  | counting
  | failing
  | taking
  | handing (fd : Fd)
  | accepting (fd : Fd)
  | unlocking (after : After)
  | receiving (fd : Fd)
  | exited
  deriving DecidableEq, Repr

/-- What a thread does with an event, from the read of the array on. -/
inductive Deed where
  | read (index : Int) (fd : Fd)
  | accept (fd : Fd)
  | del_input_fd (fd : Fd)
  | unlock
  | recv_request (fd : Fd)
  deriving DecidableEq, Repr

inductive Entry (R : Type) where
  | waited (result : Waited)
  | did (thread : R) (deed : Deed)

/-- `eintr` is what `errno == EINTR` says in each thread. -/
structure State (R : Type) where
  stop_task : Bool
  epoll_mutex : Option R
  ready_event : Nat → Fd
  ready_event_num : Int
  eintr : R → Bool
  places : R → Place
  log : List (Entry R)

inductive Action (R : Type) where
  | stop
  | go (thread : R)
  | wait (thread : R) (result : Waited)
  | accept (thread : R) (more : Bool)

section Steps
variable {R : Type} [DecidableEq R]

def State.at (state : State R) (thread : R) (place : Place) : State R :=
  { state with places := Function.update state.places thread place }

def State.note (state : State R) (thread : R) (deed : Deed) : State R :=
  { state with log := .did thread deed :: state.log }

def State.unlock (state : State R) (thread : R) : State R :=
  { state.note thread .unlock with epoll_mutex := none }

/-- A batch has between 1 and `MAX_EPOLL_EVENT_NUM` events. -/
def Returned : Waited → Prop
  | .events batch => batch ≠ [] ∧ batch.length ≤ MAX_EPOLL_EVENT_NUM
  | .interrupted | .failed => True

instance (result : Waited) : Decidable (Returned result) := by
  cases result with
  | events batch => exact inferInstanceAs (Decidable (_ ∧ _))
  | interrupted => exact inferInstanceAs (Decidable True)
  | failed => exact inferInstanceAs (Decidable True)

/-- `epoll_wait` writes the front of the array. -/
def epoll_wait (state : State R) (thread : R) (result : Waited) : State R :=
  let state := { state with log := .waited result :: state.log }
  match result with
  | .events batch =>
      { state with
        ready_event := fun slot => batch.getD slot (state.ready_event slot)
        ready_event_num := batch.length }
  | .interrupted =>
      { state with ready_event_num := -1, eintr := Function.update state.eintr thread true }
  | .failed =>
      { state with ready_event_num := -1, eintr := Function.update state.eintr thread false }

def dispatch (config : Config) (state : State R) (thread : R) (fd : Fd) : State R :=
  if fd = config.listen then state.at thread (.accepting fd)
  else if fd = config.pipe_read then state.at thread (.unlocking .again)
  else (state.note thread (.del_input_fd fd)).at thread (.unlocking (.recv_request fd))

def resume : After → Place
  | .leave => .exited
  | .again => .testing
  | .recv_request fd => .receiving fd

def go (config : Config) (state : State R) (thread : R) : Option (State R) :=
  match state.places thread with
  | .testing => some (state.at thread (if state.stop_task then .exited else .entering))
  | .entering =>
      if state.epoll_mutex = none then
        some { state.at thread .locked with epoll_mutex := some thread }
      else none
  | .locked =>
      some (state.at thread (if state.stop_task then .unlocking .leave else .waiting))
  | .counting =>
      some { state.at thread (if state.ready_event_num < 0 then .failing else .taking) with
        ready_event_num := state.ready_event_num - 1 }
  | .failing =>
      some ((state.at thread (if state.eintr thread then .testing else .exited)).unlock thread)
  | .taking =>
      let fd := state.ready_event state.ready_event_num.toNat
      some ((state.note thread (.read state.ready_event_num fd)).at thread (.handing fd))
  | .handing fd => some (dispatch config state thread fd)
  | .unlocking after => some ((state.at thread (resume after)).unlock thread)
  | .receiving fd => some ((state.note thread (.recv_request fd)).at thread .testing)
  | .waiting | .accepting _ | .exited => none

def wait (state : State R) (thread : R) (result : Waited) : Option (State R) :=
  if state.places thread = .waiting ∧ Returned result then
    if state.ready_event_num ≤ 0 then
      some ((epoll_wait state thread result).at thread .counting)
    else some (state.at thread .counting)
  else none

/-- One round of the loop around `accept`. -/
def accept (state : State R) (thread : R) (more : Bool) : Option (State R) :=
  match state.places thread with
  | .accepting fd =>
      some ((state.note thread (.accept fd)).at thread
        (if more then .accepting fd else .unlocking .again))
  | _ => none

def step (config : Config) (state : State R) : Action R → Option (State R)
  | .stop => some { state with stop_task := true }
  | .go thread => go config state thread
  | .wait thread result => wait state thread result
  | .accept thread more => accept state thread more

/-- What `Http_Server::Http_Server` leaves, no thread having started. -/
structure Initial (state : State R) : Prop where
  stop_task : state.stop_task = false
  epoll_mutex : state.epoll_mutex = none
  ready_event_num : state.ready_event_num = 0
  places : ∀ thread, state.places thread = .testing
  log : state.log = []

abbrev Reachable (config : Config) (state : State R) : Prop :=
  Transition.Reachable (step config) Initial state

theorem dispatch_listen (config : Config) (state : State R) (thread : R) :
    dispatch config state thread config.listen = state.at thread (.accepting config.listen) :=
  if_pos rfl

theorem dispatch_pipe (config : Config) (state : State R) (thread : R) :
    dispatch config state thread config.pipe_read = state.at thread (.unlocking .again) := by
  rw [dispatch, if_neg config.distinct.symm, if_pos rfl]

theorem dispatch_client (config : Config) (state : State R) (thread : R) (fd : Fd)
    (listen : fd ≠ config.listen) (pipe : fd ≠ config.pipe_read) :
    dispatch config state thread fd =
      (state.note thread (.del_input_fd fd)).at thread (.unlocking (.recv_request fd)) := by
  rw [dispatch, if_neg listen, if_neg pipe]

/-- All that a statement outside the two system calls can do. -/
inductive Went (config : Config) (state : State R) (thread : R) : State R → Prop where
  | tested (place : state.places thread = .testing) :
      Went config state thread
        (state.at thread (if state.stop_task then .exited else .entering))
  | entered (place : state.places thread = .entering) (free : state.epoll_mutex = none) :
      Went config state thread { state.at thread .locked with epoll_mutex := some thread }
  | again (place : state.places thread = .locked) :
      Went config state thread
        (state.at thread (if state.stop_task then .unlocking .leave else .waiting))
  | counted (place : state.places thread = .counting) :
      Went config state thread
        { state.at thread (if state.ready_event_num < 0 then .failing else .taking) with
          ready_event_num := state.ready_event_num - 1 }
  | failed (place : state.places thread = .failing) :
      Went config state thread
        ((state.at thread (if state.eintr thread then .testing else .exited)).unlock thread)
  | took {fd} (place : state.places thread = .taking)
      (read : state.ready_event state.ready_event_num.toNat = fd) :
      Went config state thread
        ((state.note thread (.read state.ready_event_num fd)).at thread (.handing fd))
  | listened (place : state.places thread = .handing config.listen) :
      Went config state thread (state.at thread (.accepting config.listen))
  | woken (place : state.places thread = .handing config.pipe_read) :
      Went config state thread (state.at thread (.unlocking .again))
  | removed {fd} (place : state.places thread = .handing fd) (listen : fd ≠ config.listen)
      (pipe : fd ≠ config.pipe_read) :
      Went config state thread
        ((state.note thread (.del_input_fd fd)).at thread (.unlocking (.recv_request fd)))
  | unlocked {next} (place : state.places thread = .unlocking next) :
      Went config state thread ((state.at thread (resume next)).unlock thread)
  | received {fd} (place : state.places thread = .receiving fd) :
      Went config state thread ((state.note thread (.recv_request fd)).at thread .testing)

theorem go_went (config : Config) (state after : State R) (thread : R)
    (moved : go config state thread = some after) : Went config state thread after := by
  unfold go at moved
  cases place : state.places thread with
  | entering =>
      simp only [place] at moved
      split at moved
      · rename_i free
        cases moved
        exact .entered place free
      · cases moved
  | testing =>
      simp only [place, Option.some.injEq] at moved
      exact moved ▸ .tested place
  | locked =>
      simp only [place, Option.some.injEq] at moved
      exact moved ▸ .again place
  | counting =>
      simp only [place, Option.some.injEq] at moved
      exact moved ▸ .counted place
  | failing =>
      simp only [place, Option.some.injEq] at moved
      exact moved ▸ .failed place
  | taking =>
      simp only [place, Option.some.injEq] at moved
      exact moved ▸ .took place rfl
  | handing fd =>
      simp only [place, Option.some.injEq] at moved
      subst moved
      by_cases listen : fd = config.listen
      · subst listen
        rw [dispatch_listen]
        exact .listened place
      · by_cases pipe : fd = config.pipe_read
        · subst pipe
          rw [dispatch_pipe]
          exact .woken place
        · rw [dispatch_client config state thread fd listen pipe]
          exact .removed place listen pipe
  | unlocking next =>
      simp only [place, Option.some.injEq] at moved
      exact moved ▸ .unlocked place
  | receiving fd =>
      simp only [place, Option.some.injEq] at moved
      exact moved ▸ .received place
  | waiting => simp [place] at moved
  | accepting fd => simp [place] at moved
  | exited => simp [place] at moved

end Steps

/-! What a log says of the latest batch: its events, the reads of the array since, the sections
that have ended since, and the reads whose event has been handed on; and what it says of one
thread. -/

section Logs
variable {R : Type}

def latest : List (Entry R) → List Fd
  | [] => []
  | .waited (.events batch) :: _ => batch
  | _ :: older => latest older

def since : List (Entry R) → List (Entry R)
  | [] => []
  | .waited (.events _) :: _ => []
  | entry :: older => entry :: since older

def taken : List (Entry R) → List (R × Int)
  | [] => []
  | .waited (.events _) :: _ => []
  | .did thread (.read index _) :: older => (thread, index) :: taken older
  | _ :: older => taken older

def sections : List (Entry R) → Nat
  | [] => 0
  | .waited (.events _) :: _ => 0
  | .did _ .unlock :: older => sections older + 1
  | _ :: older => sections older

inductive Duty where
  | none
  | event (index : Int) (fd : Fd)
  | accepting (fd : Fd)
  | removed (fd : Fd)
  | request (fd : Fd)
  deriving DecidableEq, Repr

/-- The duty of a thread that has done this, its last deed first. -/
def duty : List Deed → Duty
  | .read index fd :: _ => .event index fd
  | .accept fd :: _ => .accepting fd
  | .del_input_fd fd :: _ => .removed fd
  | .unlock :: .del_input_fd fd :: _ => .request fd
  | _ => .none

/-- What a descriptor asks for: a listening socket to be accepted on, the pipe that the section
be left, and a client to be taken out of epoll. -/
def asked (config : Config) (fd : Fd) : Deed :=
  if fd = config.listen then .accept fd
  else if fd = config.pipe_read then .unlock
  else .del_input_fd fd

/-- Deeds that fulfil a duty. A client that is out of epoll has its request received behind the
section. -/
def Fulfils (config : Config) (deed : Deed) : Duty → Prop
  | .none => (∃ index fd, deed = .read index fd) ∨ deed = .unlock
  | .event _ fd => deed = asked config fd
  | .accepting fd => deed = .accept fd ∨ deed = .unlock
  | .removed _ => deed = .unlock
  | .request fd => deed = .recv_request fd

def readers (reads : List (R × Int)) (index : Int) : List R :=
  (reads.filter fun read => decide (read.2 = index)).map Prod.fst

/-- The indices of the events that are gone, the last one read first. -/
def indices (size number : Nat) : List Int := (List.range' (size - number) number).map Int.ofNat

def Follows (older : List (Entry R)) : Entry R → Prop
  | .waited _ => (taken older).map Prod.snd = indices (latest older).length (latest older).length
  | .did _ (.read index fd) =>
      0 ≤ index ∧ index < (latest older).length ∧ (latest older)[index.toNat]? = some fd
  | .did _ _ => True

def Along (may : List (Entry R) → Entry R → Prop) : List (Entry R) → Prop
  | [] => True
  | entry :: older => may older entry ∧ Along may older

theorem Along.at {may : List (Entry R) → Entry R → Prop} {later older : List (Entry R)}
    {entry : Entry R} (along : Along may (later ++ entry :: older)) : may older entry := by
  induction later with
  | nil => exact along.1
  | cons newest later ih => exact ih along.2

theorem indices_succ (size number : Nat) (room : number < size) :
    indices size (number + 1) = ((size - number - 1 : Nat) : Int) :: indices size number := by
  have next : size - number - 1 + 1 = size - number := by omega
  rw [indices, Nat.sub_add_eq, List.range'_succ, next]
  rfl

theorem indices_nodup (size number : Nat) : (indices size number).Nodup :=
  List.Nodup.map (fun _ _ => Int.ofNat.inj) List.nodup_range'

theorem readers_once (reads : List (R × Int)) (distinct : (reads.map Prod.snd).Nodup)
    (index : Int) : (readers reads index).length ≤ 1 := by
  induction reads with
  | nil => simp [readers]
  | cons read reads ih =>
      obtain ⟨new, distinct⟩ := List.nodup_cons.mp distinct
      have rest := ih distinct
      by_cases same : read.2 = index
      · have nothing : (reads.filter fun read => decide (read.2 = index)) = [] := by
          rw [List.filter_eq_nil_iff]
          intro other member equal
          apply new
          rw [same, ← of_decide_eq_true equal]
          exact List.mem_map_of_mem member
        rw [readers, List.filter_cons_of_pos (by simpa using same), nothing]
        exact le_rfl
      · rwa [readers, List.filter_cons_of_neg (by simpa using same)]

theorem readers_one (reads : List (R × Int)) (distinct : (reads.map Prod.snd).Nodup)
    (index : Int) (read : index ∈ reads.map Prod.snd) :
    ∃ thread, readers reads index = [thread] := by
  rw [← List.length_eq_one_iff]
  apply Nat.le_antisymm (readers_once reads distinct index)
  obtain ⟨pair, member, same⟩ := List.mem_map.mp read
  apply List.length_pos_of_mem (a := pair.1)
  exact List.mem_map_of_mem (List.mem_filter.mpr ⟨member, by simpa using same⟩)

variable [DecidableEq R]

def own (thread : R) : List (Entry R) → List Deed
  | [] => []
  | .waited _ :: older => own thread older
  | .did other deed :: older =>
      if other = thread then deed :: own thread older else own thread older

/-- The reads whose thread has then done what the descriptor asks for. -/
def handed (config : Config) : List (Entry R) → List (R × Int)
  | [] => []
  | .waited (.events _) :: _ => []
  | .waited _ :: older => handed config older
  | .did thread deed :: older =>
      match duty (own thread (since older)) with
      | .event index fd =>
          if deed = asked config fd then (thread, index) :: handed config older
          else handed config older
      | _ => handed config older

def dispatchers (config : Config) (log : List (Entry R)) (index : Int) : List R :=
  readers (handed config log) index

/-- Every event of the latest batch has been dispatched, by one thread. -/
def Complete (config : Config) (log : List (Entry R)) : Prop :=
  ∀ index < (latest log).length, ∃ thread, dispatchers config log index = [thread]

/-- A batch is over when all its events have been handed on, and a thread does its duty. -/
def Obeys (config : Config) (older : List (Entry R)) : Entry R → Prop
  | .waited _ => handed config older = taken older
  | .did thread deed => Fulfils config deed (duty (own thread older))

theorem complete_of_all (config : Config) (log : List (Entry R))
    (order : (taken log).map Prod.snd = indices (latest log).length (latest log).length)
    (all : handed config log = taken log) : Complete config log := by
  intro index inside
  have distinct : ((handed config log).map Prod.snd).Nodup := by
    rw [all, order]
    exact indices_nodup _ _
  apply readers_one _ distinct
  rw [all, order, indices]
  simp only [Nat.sub_self, List.mem_map, List.mem_range'_1]
  exact ⟨index, ⟨Nat.zero_le _, by omega⟩, rfl⟩

end Logs

/-! The invariant. What the counter means depends on where the holder of the mutex is. -/

section Invariant
variable {R : Type}

def Place.holds : Place → Bool
  | .testing | .entering | .receiving _ | .exited => false
  | .locked | .waiting | .counting | .failing | .taking | .handing _ | .accepting _
  | .unlocking _ => true

def State.read (state : State R) : Nat := (taken state.log).length

def State.size (state : State R) : Nat := (latest state.log).length

/-- Between two rounds: a batch has been used up, or the counter is what is left of it. -/
def State.Settled (state : State R) : Prop :=
  (state.ready_event_num ≤ 0 ∧ state.read = state.size) ∨
    (0 < state.ready_event_num ∧ state.ready_event_num + state.read = state.size)

def State.Stage (state : State R) : Place → Prop
  | .counting =>
      (state.ready_event_num < 0 ∧ state.read = state.size) ∨
        (0 < state.ready_event_num ∧ state.ready_event_num + state.read = state.size)
  | .failing => state.ready_event_num < 0 ∧ state.read = state.size
  | .taking =>
      0 ≤ state.ready_event_num ∧ state.ready_event_num + 1 + state.read = state.size
  | _ => state.Settled

/-- The sections that have ended are no more than the reads, until a batch is used up. -/
def State.Paced (state : State R) (inside : Nat) : Prop :=
  state.stop_task = true ∨ (state.read = state.size ∧ inside = 0) ∨
    sections state.log + inside ≤ state.read

/-- A section whose read has been made has still to end. -/
def Place.inside : Place → Nat
  | .handing _ | .accepting _ | .unlocking _ => 1
  | _ => 0

def State.holder (state : State R) : Place :=
  match state.epoll_mutex with
  | none => .testing
  | some thread => state.places thread

structure Inv (state : State R) : Prop where
  mutex : ∀ thread, (state.places thread).holds = true ↔ state.epoll_mutex = some thread
  stage : state.Stage state.holder
  paced : state.Paced state.holder.inside
  batch : ∀ slot < state.size, (latest state.log)[slot]? = some (state.ready_event slot)
  order : (taken state.log).map Prod.snd = indices state.size state.read
  sound : Along Follows state.log

theorem initial_inv (state : State R) (initial : Initial state) : Inv state := by
  have empty : state.log = [] := initial.log
  have nothing : state.read = state.size := by simp [State.read, State.size, empty, taken, latest]
  constructor
  · intro thread
    simp [initial.places thread, initial.epoll_mutex, Place.holds]
  · simp only [State.holder, initial.epoll_mutex, State.Stage]
    exact .inl ⟨initial.ready_event_num.le, nothing⟩
  · rw [State.holder, initial.epoll_mutex]
    exact .inr (.inl ⟨nothing, rfl⟩)
  · simp [State.size, empty, latest]
  · simp [State.size, State.read, empty, taken, latest, indices]
  · rw [empty]
    trivial

theorem holder_eq {state : State R} {thread : R} (held : state.epoll_mutex = some thread) :
    state.holder = state.places thread := by
  rw [State.holder, held]

theorem Inv.stop {state : State R} (inv : Inv state) : Inv { state with stop_task := true } :=
  ⟨inv.mutex, inv.stage, .inl rfl, inv.batch, inv.order, inv.sound⟩

theorem Inv.note {state : State R} (inv : Inv state) (thread : R) (deed : Deed)
    (read : ∀ index fd, deed ≠ .read index fd) (unlock : deed ≠ .unlock) :
    Inv (state.note thread deed) := by
  cases deed with
  | read index fd => exact absurd rfl (read index fd)
  | unlock => exact absurd rfl unlock
  | accept | del_input_fd | recv_request =>
      exact ⟨inv.mutex, inv.stage, inv.paced, inv.batch, inv.order, trivial, inv.sound⟩

variable [DecidableEq R]

theorem places_at (state : State R) (thread other : R) (place : Place) :
    (state.at thread place).places other =
      if other = thread then place else state.places other :=
  Function.update_apply state.places thread place other

theorem holder_at (state : State R) (thread : R) (place : Place)
    (held : state.epoll_mutex = some thread) : (state.at thread place).holder = place := by
  rw [holder_eq (show (state.at thread place).epoll_mutex = some thread from held), places_at,
    if_pos rfl]

theorem holder_at_other (state : State R) (thread : R) (place : Place)
    (other : state.epoll_mutex ≠ some thread) :
    (state.at thread place).holder = state.holder := by
  unfold State.holder State.at
  cases held : state.epoll_mutex with
  | none => rfl
  | some owner =>
      have differs : owner ≠ thread := fun same => other (by rw [held, same])
      simp [Function.update_of_ne differs]

theorem Inv.mutex_at {state : State R} (inv : Inv state) (thread : R) (place : Place)
    (same : place.holds = (state.places thread).holds) (other : R) :
    ((state.at thread place).places other).holds = true ↔ state.epoll_mutex = some other := by
  rw [← inv.mutex other, places_at]
  split
  · rename_i self
    rw [self, same]
  · rfl

theorem Inv.moved {state : State R} (inv : Inv state) (thread : R) (start place : Place)
    (found : state.places thread = start) (same : place.holds = start.holds)
    (stage : start.holds = true → state.Stage start → state.Stage place)
    (paced : start.holds = true → state.Paced start.inside → state.Paced place.inside) :
    Inv (state.at thread place) := by
  subst found
  refine ⟨inv.mutex_at thread place same, ?_, ?_, inv.batch, inv.order, inv.sound⟩
  · by_cases held : state.epoll_mutex = some thread
    · rw [holder_at state thread place held]
      exact stage ((inv.mutex thread).mpr held) (holder_eq held ▸ inv.stage)
    · rw [holder_at_other state thread place held]
      exact inv.stage
  · by_cases held : state.epoll_mutex = some thread
    · rw [holder_at state thread place held]
      exact paced ((inv.mutex thread).mpr held) (holder_eq held ▸ inv.paced)
    · rw [holder_at_other state thread place held]
      exact inv.paced

theorem Inv.unlocked {state : State R} (inv : Inv state) (thread : R) (place : Place)
    (held : (state.places thread).holds = true) (free : place.holds = false)
    (settled : state.Settled) (inside : Nat) (paced : state.Paced inside)
    (ends : inside = 1 ∨ state.read = state.size) :
    Inv ((state.at thread place).unlock thread) := by
  have owner := (inv.mutex thread).mp held
  refine ⟨?_, settled, ?_, inv.batch, inv.order, trivial, inv.sound⟩
  · intro other
    change ((state.at thread place).places other).holds = true ↔ none = some other
    rw [places_at]
    split
    · simp [free]
    · rename_i differs
      rw [inv.mutex other, owner]
      simp [Ne.symm differs]
  · rcases ends with one | all
    · rcases paced with stopped | ⟨_, zero⟩ | pace
      · exact .inl stopped
      · omega
      · rw [one] at pace
        exact .inr (.inr pace)
    · exact .inr (.inl ⟨all, rfl⟩)

theorem Inv.locked {state : State R} (inv : Inv state) (thread : R)
    (free : state.epoll_mutex = none) :
    Inv { state.at thread .locked with epoll_mutex := some thread } := by
  have stage := inv.stage
  have paced := inv.paced
  simp only [State.holder, free] at stage paced
  have holder : State.holder { state.at thread .locked with epoll_mutex := some thread } =
      .locked := by
    simp [State.holder, State.at]
  refine ⟨?_, ?_, ?_, inv.batch, inv.order, inv.sound⟩
  · intro other
    change ((state.at thread .locked).places other).holds = true ↔ some thread = some other
    rw [places_at]
    split
    · rename_i self
      simp [self, Place.holds]
    · rename_i differs
      rw [inv.mutex other, free]
      simp [Ne.symm differs]
  · rw [holder]
    exact stage
  · rw [holder]
    exact paced

theorem Inv.inside {state after : State R} (inv : Inv state) (thread : R) (place : Place)
    (held : (state.places thread).holds = true) (mutex : after.epoll_mutex = state.epoll_mutex)
    (places : after.places = (state.at thread place).places) (holds : place.holds = true)
    (stage : after.Stage place) (paced : after.Paced place.inside)
    (batch : ∀ slot < after.size, (latest after.log)[slot]? = some (after.ready_event slot))
    (order : (taken after.log).map Prod.snd = indices after.size after.read)
    (sound : Along Follows after.log) : Inv after := by
  have owner : after.epoll_mutex = some thread := mutex.trans ((inv.mutex thread).mp held)
  have holder : after.holder = place := by
    rw [holder_eq owner, places, places_at, if_pos rfl]
  refine ⟨?_, by rwa [holder], by rwa [holder], batch, order, sound⟩
  intro other
  rw [places, mutex]
  exact inv.mutex_at thread place (by rw [holds, held]) other

theorem Inv.waited {state : State R} (inv : Inv state) (thread : R) (result : Waited)
    (returned : Returned result) (place : state.places thread = .waiting)
    (empty : state.ready_event_num ≤ 0) :
    Inv ((epoll_wait state thread result).at thread .counting) := by
  have held : (state.places thread).holds = true := by rw [place]; rfl
  have stage := inv.stage
  rw [holder_eq ((inv.mutex thread).mp held), place] at stage
  -- `epoll_wait` is called where the counter is not positive: every event has been read.
  have all : state.read = state.size := by
    rcases stage with ⟨_, all⟩ | ⟨positive, _⟩
    · exact all
    · omega
  have spent : (taken state.log).map Prod.snd =
      indices (latest state.log).length (latest state.log).length := by
    have order := inv.order
    rwa [all] at order
  cases result with
  | events batch =>
      have positive : 0 < batch.length := List.length_pos_iff.mpr returned.1
      have mutex : ((epoll_wait state thread (.events batch)).at thread .counting).epoll_mutex =
          state.epoll_mutex := rfl
      apply inv.inside thread .counting held mutex rfl rfl
      · right
        simp [epoll_wait, State.at, State.read, State.size, taken, latest, positive]
      · exact .inr (.inr (Nat.zero_le _))
      · intro slot inside
        simp only [epoll_wait, State.at, latest, State.size] at inside ⊢
        simp [inside]
      · rfl
      · exact ⟨spent, inv.sound⟩
  | interrupted =>
      have mutex : ((epoll_wait state thread .interrupted).at thread .counting).epoll_mutex =
          state.epoll_mutex := rfl
      apply inv.inside thread .counting held mutex rfl rfl
      · exact .inl ⟨by simp [epoll_wait, State.at], all⟩
      · exact .inr (.inl ⟨all, rfl⟩)
      · exact inv.batch
      · exact inv.order
      · exact ⟨spent, inv.sound⟩
  | failed =>
      have mutex : ((epoll_wait state thread .failed).at thread .counting).epoll_mutex =
          state.epoll_mutex := rfl
      apply inv.inside thread .counting held mutex rfl rfl
      · exact .inl ⟨by simp [epoll_wait, State.at], all⟩
      · exact .inr (.inl ⟨all, rfl⟩)
      · exact inv.batch
      · exact inv.order
      · exact ⟨spent, inv.sound⟩

theorem Inv.counted {state : State R} (inv : Inv state) (thread : R)
    (place : state.places thread = .counting) :
    Inv { state.at thread (if state.ready_event_num < 0 then .failing else .taking) with
      ready_event_num := state.ready_event_num - 1 } := by
  have held : (state.places thread).holds = true := by rw [place]; rfl
  have owner := (inv.mutex thread).mp held
  have stage := inv.stage
  have paced := inv.paced
  rw [holder_eq owner, place] at stage paced
  -- The counter is now the index of the event to be read, if there is one.
  split
  · rename_i negative
    have mutex : ({ state.at thread .failing with
        ready_event_num := state.ready_event_num - 1 } : State R).epoll_mutex =
          state.epoll_mutex := rfl
    apply inv.inside thread .failing held mutex rfl rfl _ paced inv.batch inv.order inv.sound
    rcases stage with ⟨_, all⟩ | ⟨positive, _⟩
    · exact ⟨by dsimp only; omega, all⟩
    · omega
  · rename_i counted
    have mutex : ({ state.at thread .taking with
        ready_event_num := state.ready_event_num - 1 } : State R).epoll_mutex =
          state.epoll_mutex := rfl
    apply inv.inside thread .taking held mutex rfl rfl _ paced inv.batch inv.order inv.sound
    rcases stage with ⟨error, _⟩ | ⟨positive, left⟩
    · omega
    · refine ⟨by dsimp only; omega, ?_⟩
      change state.ready_event_num - 1 + 1 + (state.read : Int) = state.size
      omega

theorem Inv.took {state : State R} (inv : Inv state) (thread : R) (fd : Fd)
    (place : state.places thread = .taking)
    (event : state.ready_event state.ready_event_num.toNat = fd) :
    Inv ((state.note thread (.read state.ready_event_num fd)).at thread (.handing fd)) := by
  have held : (state.places thread).holds = true := by rw [place]; rfl
  have owner := (inv.mutex thread).mp held
  have counter := inv.stage
  have paced := inv.paced
  rw [holder_eq owner, place] at counter paced
  obtain ⟨low, left⟩ := counter
  have room : state.read < state.size := by omega
  -- The index is one below those that have been read.
  have index : state.ready_event_num = ((state.size - state.read - 1 : Nat) : Int) := by omega
  have mutex : ((state.note thread (.read state.ready_event_num fd)).at thread
      (.handing fd)).epoll_mutex = state.epoll_mutex := rfl
  apply inv.inside thread (.handing fd) held mutex rfl rfl
  · change (state.ready_event_num ≤ 0 ∧ state.read + 1 = state.size) ∨
      (0 < state.ready_event_num ∧
        state.ready_event_num + ((state.read + 1 : Nat) : Int) = state.size)
    omega
  · rcases paced with stopped | ⟨all, _⟩ | pace
    · exact .inl stopped
    · omega
    · exact .inr (.inr (Nat.succ_le_succ pace))
  · exact inv.batch
  · change state.ready_event_num :: (taken state.log).map Prod.snd =
      indices state.size (state.read + 1)
    rw [indices_succ _ _ room, inv.order, index]
  · refine ⟨⟨low, ?_, event ▸ inv.batch _ ?_⟩, inv.sound⟩
    · change state.ready_event_num < state.size
      omega
    · omega

theorem Inv.go {config : Config} {state after : State R} (inv : Inv state) (thread : R)
    (moved : go config state thread = some after) : Inv after := by
  cases go_went config state after thread moved with
  | tested place =>
      split
      · exact inv.moved thread _ _ place rfl nofun nofun
      · exact inv.moved thread _ _ place rfl nofun nofun
  | entered place free => exact inv.locked thread free
  | again place =>
      split
      · rename_i stopped
        exact inv.moved thread _ _ place rfl (fun _ stage => stage) (fun _ _ => .inl stopped)
      · exact inv.moved thread _ _ place rfl (fun _ stage => stage) (fun _ paced => paced)
  | counted place => exact inv.counted thread place
  | failed place =>
      have held : (state.places thread).holds = true := by rw [place]; rfl
      have stage := inv.stage
      rw [holder_eq ((inv.mutex thread).mp held), place] at stage
      apply inv.unlocked thread _ held
      · split
        · rfl
        · rfl
      · exact .inl ⟨stage.1.le, stage.2⟩
      · exact inv.paced
      · exact .inr stage.2
  | took place event => exact inv.took thread _ place event
  | listened place =>
      exact inv.moved thread _ _ place rfl (fun _ stage => stage) (fun _ paced => paced)
  | woken place =>
      exact inv.moved thread _ _ place rfl (fun _ stage => stage) (fun _ paced => paced)
  | removed place =>
      exact (inv.note thread _ (by simp) (by simp)).moved thread _ _ place rfl
        (fun _ stage => stage) (fun _ paced => paced)
  | @unlocked next place =>
      have held : (state.places thread).holds = true := by rw [place]; rfl
      have stage := inv.stage
      have paced := inv.paced
      rw [holder_eq ((inv.mutex thread).mp held), place] at stage paced
      refine inv.unlocked thread _ held ?_ stage _ paced (.inl rfl)
      cases next with
      | leave => rfl
      | again => rfl
      | recv_request fd => rfl
  | received place =>
      exact (inv.note thread _ (by simp) (by simp)).moved thread _ _ place rfl
        (fun held => by cases held) (fun held => by cases held)

theorem Inv.step {config : Config} {state after : State R} (inv : Inv state)
    (action : Action R) (moved : step config state action = some after) : Inv after := by
  cases action with
  | stop =>
      cases moved
      exact inv.stop
  | go thread => exact inv.go thread moved
  | wait thread result =>
      simp only [EventLoop.step, wait] at moved
      split at moved
      · rename_i meets
        split at moved
        · rename_i empty
          cases moved
          exact inv.waited thread result meets.2 meets.1 empty
        · rename_i positive
          cases moved
          have counter (settled : state.Settled) : state.Stage .counting := by
            rcases settled with ⟨empty, _⟩ | left
            · exact absurd empty positive
            · exact .inr left
          exact inv.moved thread _ _ meets.1 rfl (fun _ => counter) (fun _ paced => paced)
      · cases moved
  | accept thread more =>
      simp only [EventLoop.step, accept] at moved
      split at moved
      · rename_i fd place
        cases moved
        have noted := inv.note thread (.accept fd) (by simp) (by simp)
        cases more with
        | true =>
            exact noted.moved thread _ _ place rfl (fun _ stage => stage) (fun _ paced => paced)
        | false =>
            exact noted.moved thread _ _ place rfl (fun _ stage => stage) (fun _ paced => paced)
      · cases moved

theorem reachable_inv (config : Config) (state : State R) (reached : Reachable config state) :
    Inv state :=
  reached.invariant Inv initial_inv fun _ action _ _ _ inv moved => inv.step action moved

omit [DecidableEq R] in
theorem Inv.bounded {state : State R} (inv : Inv state) : state.read ≤ state.size := by
  have stage := inv.stage
  have settled : state.Settled → state.read ≤ state.size := by
    rintro (⟨_, all⟩ | ⟨positive, left⟩)
    · exact all.le
    · omega
  cases place : state.holder with
  | counting =>
      rw [place] at stage
      rcases stage with ⟨_, all⟩ | ⟨positive, left⟩
      · exact all.le
      · omega
  | failing =>
      rw [place] at stage
      exact stage.2.le
  | taking =>
      rw [place] at stage
      obtain ⟨_, left⟩ := stage
      omega
  | _ =>
      rw [place] at stage
      exact settled stage

end Invariant

end AsrServer.EventLoop
