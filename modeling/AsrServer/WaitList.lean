import AsrServer.Ring
import AsrServer.Transition

/-!
`wait_list_t` over `linked_list_t`, as threads run it. Any thread may call `put`,
`get` and `flush`; the mutex, the condition variable and the ring of nodes
are part of the state. The code between taking the mutex and leaving it (or going
to sleep) is one step, everything else may be interleaved. A put node is a
newly allocated `Worker`: its address is not that of a live one and not that of
the list's own `_head`.
-/

namespace AsrServer.WaitList

open AsrServer.Ring

/-! `linked_list_t`, with `_head` at the address `head`. -/
section List
variable {Node : Type*} [DecidableEq Node]

def is_empty (head : Node) (links : Links Node) : Bool := links.next head == head

/-- `entry`; none is NULL. -/
def entry (head node : Node) : Option Node := if node = head then none else some node

def add (head node : Node) (links : Links Node) : Links Node := insertNext node head links

def del (node : Node) (links : Links Node) : Links Node := remove node links

def emptied (head : Node) (links : Links Node) : Links Node :=
  (links.setPrev head head).setNext head head

end List

inductive Place (Node : Type*) where
  | idle
  /-- In `put`, waiting for the mutex. -/
  | putting (node : Node)
  | adding (node : Node)
  | added
  /-- The mutex is released, `pthread_cond_signal` is still to come. -/
  | signalling
  /-- In `get`, waiting for the mutex. -/
  | getting
  /-- At the condition of the loop in `get`. -/
  | testing
  | asleep
  /-- Back from sleep, waiting for the mutex. -/
  | woken
  | taken (ret : Option Node)
  /-- `get` has returned a worker, which is not deleted yet. -/
  | serving (node : Node)
  | flushing
  | clearing
  | broadcasting
  | flushed
  deriving DecidableEq

/-- `pthread_mutex_lock`, and the second half of `pthread_cond_wait`. -/
def Place.locked {Node : Type*} : Place Node → Option (Place Node)
  | .putting node => some (.adding node)
  | .getting | .woken => some .testing
  | .flushing => some .clearing
  | _ => none

def Place.unlocked {Node : Type*} : Place Node → Option (Place Node)
  | .added => some .signalling
  | .taken (some node) => some (.serving node)
  | .taken none | .flushed => some .idle
  | _ => none

theorem locked_cases {Node : Type*} (place next : Place Node)
    (goes : place.locked = some next) :
    (∃ node, place = .putting node ∧ next = .adding node) ∨
      ((place = .getting ∨ place = .woken) ∧ next = .testing) ∨
      (place = .flushing ∧ next = .clearing) := by
  cases place with
  | putting node | getting | woken | flushing =>
      cases goes
      simp
  | _ => cases goes

theorem unlocked_cases {Node : Type*} (place next : Place Node)
    (goes : place.unlocked = some next) :
    (place = .added ∧ next = .signalling) ∨
      (∃ node, place = .taken (some node) ∧ next = .serving node) ∨
      ((place = .taken none ∨ place = .flushed) ∧ next = .idle) := by
  cases place with
  | added | flushed =>
      cases goes
      simp
  | taken ret =>
      cases ret with
      | none | some node =>
          cases goes
          simp
  | _ => cases goes

/-- The shared state and the threads. `_num` is an `int`; a `Worker` holds a
result buffer of a megabyte, so an address space has no room for 2^31 of them.
`live` are the allocated nodes. `put`, `got` and `awake` are not in the source:
they record the nodes that `put` was called with, those that `get` returned, and that
a broadcast has happened. -/
structure State (Thread Node : Type*) where
  head : Node
  links : Links Node
  alive : Bool
  num : Int
  mutex : Option Thread
  places : Thread → Place Node
  live : Node → Bool
  put : List Node
  got : List Node
  awake : Bool

inductive Action (Thread Node : Type*) where
  | callPut (thread : Thread) (node : Node)
  | callGet (thread : Thread)
  | callFlush (thread : Thread)
  | lock (thread : Thread)
  | body (thread : Thread)
  | unlock (thread : Thread)
  | signal (thread : Thread) (sleeper : Option Thread)
  | spurious (thread : Thread)
  | delete (thread : Thread)

variable {Thread Node : Type*} [DecidableEq Thread] [DecidableEq Node]

def State.initial (head : Node) (links : Links Node) : State Thread Node where
  head := head
  links := emptied head links
  alive := true
  num := 0
  mutex := none
  places := fun _ => .idle
  live := fun _ => false
  put := []
  got := []
  awake := false

def State.at (state : State Thread Node) (thread : Thread) (place : Place Node) :
    State Thread Node :=
  { state with places := Function.update state.places thread place }

omit [DecidableEq Node] in
@[simp] theorem at_num (state : State Thread Node) (thread : Thread) (place : Place Node) :
    (state.at thread place).num = state.num := rfl

/-- `put` between lock and unlock. -/
def put (state : State Thread Node) (thread : Thread) (node : Node) : State Thread Node :=
  let called := { state.at thread .added with put := state.put ++ [node] }
  if state.alive then
    { called with links := add state.head node state.links, num := state.num + 1 }
  else called

/-- `get` from the condition of its loop to the next unlock or wait. Where
`entry` is NULL the source would follow it; `unfollowed` shows it never is. -/
def get (state : State Thread Node) (thread : Thread) : State Thread Node :=
  if state.alive && is_empty state.head state.links then
    { state.at thread .asleep with mutex := none }
  else if state.alive then
    match entry state.head (state.links.prev state.head) with
    | some ret =>
        { state.at thread (.taken (some ret)) with
          links := del ret state.links
          num := state.num - 1
          got := state.got ++ [ret] }
    | none => state.at thread (.taken none)
  else state.at thread (.taken none)

/-- `pthread_cond_broadcast`. -/
def broadcast (state : State Thread Node) (thread : Thread) : State Thread Node :=
  let roused := fun other =>
    if state.places other = .asleep then Place.woken else state.places other
  { state with places := Function.update roused thread .flushed, awake := true }

/-- `pthread_cond_signal`: it wakes a sleeper if there is one. -/
def signal [Fintype Thread] (state : State Thread Node) (thread : Thread) :
    Option Thread → Option (State Thread Node)
  | some sleeper =>
      if state.places sleeper = .asleep then some ((state.at sleeper .woken).at thread .idle)
      else none
  | none =>
      if ∀ other, state.places other ≠ .asleep then some (state.at thread .idle) else none

def step [Fintype Thread] (state : State Thread Node) :
    Action Thread Node → Option (State Thread Node)
  | .callPut thread node =>
      if state.places thread = .idle ∧ state.live node = false ∧ node ≠ state.head then
        some { state.at thread (.putting node) with
          live := Function.update state.live node true }
      else none
  | .callGet thread =>
      if state.places thread = .idle then some (state.at thread .getting) else none
  | .callFlush thread =>
      if state.places thread = .idle then some (state.at thread .flushing) else none
  | .lock thread =>
      if state.mutex.isNone then
        (state.places thread).locked.map fun place =>
          { state.at thread place with mutex := some thread }
      else none
  | .body thread =>
      match state.places thread with
      | .adding node => some (put state thread node)
      | .testing => some (get state thread)
      | .clearing => some { state.at thread .broadcasting with alive := false }
      | .broadcasting => some (broadcast state thread)
      | _ => none
  | .unlock thread =>
      (state.places thread).unlocked.map fun place =>
        { state.at thread place with mutex := none }
  | .signal thread sleeper =>
      if state.places thread = .signalling then signal state thread sleeper else none
  | .spurious thread =>
      if state.places thread = .asleep then some (state.at thread .woken) else none
  | .delete thread =>
      match state.places thread with
      | .serving node =>
          some { state.at thread .idle with live := Function.update state.live node false }
      | _ => none

def Constructed (state : State Thread Node) : Prop :=
  ∃ head links, state = .initial head links

/-- The outcomes of a step. What a step does to the list and to the nodes a thread
has depends on this alone. -/
inductive Moved (state : State Thread Node) : State Thread Node → Prop where
  | callPut (thread : Thread) (node : Node) (place : state.places thread = .idle)
      (unused : state.live node = false) (apart : node ≠ state.head) :
      Moved state { state.at thread (.putting node) with
        live := Function.update state.live node true }
  | callGet (thread : Thread) (place : state.places thread = .idle) :
      Moved state (state.at thread .getting)
  | callFlush (thread : Thread) (place : state.places thread = .idle) :
      Moved state (state.at thread .flushing)
  | lock (thread : Thread) (place : Place Node)
      (goes : (state.places thread).locked = some place) (free : state.mutex = none) :
      Moved state { state.at thread place with mutex := some thread }
  | put (thread : Thread) (node : Node) (place : state.places thread = .adding node)
      (alive : state.alive = true) :
      Moved state { state.at thread .added with
        put := state.put ++ [node]
        links := add state.head node state.links
        num := state.num + 1 }
  | drop (thread : Thread) (node : Node) (place : state.places thread = .adding node)
      (dead : state.alive = false) :
      Moved state { state.at thread .added with put := state.put ++ [node] }
  | sleep (thread : Thread) (place : state.places thread = .testing)
      (alive : state.alive = true) (empty : state.links.next state.head = state.head) :
      Moved state { state.at thread .asleep with mutex := none }
  | take (thread : Thread) (place : state.places thread = .testing)
      (alive : state.alive = true) (nonempty : state.links.next state.head ≠ state.head)
      (node : state.links.prev state.head ≠ state.head) :
      Moved state { state.at thread (.taken (state.links.prev state.head)) with
        links := del (state.links.prev state.head) state.links
        num := state.num - 1
        got := state.got ++ [state.links.prev state.head] }
  | unfollowed (thread : Thread) (place : state.places thread = .testing)
      (alive : state.alive = true) (nonempty : state.links.next state.head ≠ state.head)
      (null : state.links.prev state.head = state.head) :
      Moved state (state.at thread (.taken none))
  | leave (thread : Thread) (place : state.places thread = .testing)
      (dead : state.alive = false) :
      Moved state (state.at thread (.taken none))
  | clear (thread : Thread) (place : state.places thread = .clearing) :
      Moved state { state.at thread .broadcasting with alive := false }
  | broadcast (thread : Thread) (place : state.places thread = .broadcasting) :
      Moved state (broadcast state thread)
  | unlock (thread : Thread) (place : Place Node)
      (goes : (state.places thread).unlocked = some place) :
      Moved state { state.at thread place with mutex := none }
  | signal (thread sleeper : Thread) (place : state.places thread = .signalling)
      (sleeps : state.places sleeper = .asleep) :
      Moved state ((state.at sleeper .woken).at thread .idle)
  | unheard (thread : Thread) (place : state.places thread = .signalling)
      (sleepless : ∀ other, state.places other ≠ .asleep) :
      Moved state (state.at thread .idle)
  | spurious (thread : Thread) (place : state.places thread = .asleep) :
      Moved state (state.at thread .woken)
  | delete (thread : Thread) (node : Node) (place : state.places thread = .serving node) :
      Moved state { state.at thread .idle with
        live := Function.update state.live node false }

theorem get_moved (state : State Thread Node) (thread : Thread)
    (place : state.places thread = .testing) : Moved state (get state thread) := by
  rw [get]
  cases alive : state.alive with
  | false => exact .leave thread place alive
  | true =>
      simp only [Bool.true_and, is_empty, beq_iff_eq, ↓reduceIte]
      by_cases empty : state.links.next state.head = state.head
      · rw [if_pos empty]
        exact .sleep thread place alive empty
      · rw [if_neg empty]
        by_cases null : state.links.prev state.head = state.head
        · simp only [entry, null, ↓reduceIte]
          exact .unfollowed thread place alive empty null
        · simp only [entry, null, ↓reduceIte]
          exact .take thread place alive empty null

theorem step_moved [Fintype Thread] (state after : State Thread Node) (action : Action Thread Node)
    (moved : step state action = some after) : Moved state after := by
  cases action with
  | callPut thread node =>
      simp only [step, Option.ite_none_right_eq_some, Option.some.injEq] at moved
      obtain ⟨⟨place, unused, apart⟩, rfl⟩ := moved
      exact .callPut thread node place unused apart
  | callGet thread =>
      simp only [step, Option.ite_none_right_eq_some, Option.some.injEq] at moved
      obtain ⟨place, rfl⟩ := moved
      exact .callGet thread place
  | callFlush thread =>
      simp only [step, Option.ite_none_right_eq_some, Option.some.injEq] at moved
      obtain ⟨place, rfl⟩ := moved
      exact .callFlush thread place
  | lock thread =>
      simp only [step, Option.ite_none_right_eq_some, Option.isNone_iff_eq_none,
        Option.map_eq_some_iff] at moved
      obtain ⟨free, place, goes, rfl⟩ := moved
      exact .lock thread place goes free
  | body thread =>
      simp only [step] at moved
      split at moved
      · rename_i node place
        cases moved
        rw [put]
        cases alive : state.alive with
        | true => exact .put thread node place alive
        | false => exact .drop thread node place alive
      · rename_i place
        cases moved
        exact get_moved state thread place
      · rename_i place
        cases moved
        exact .clear thread place
      · rename_i place
        cases moved
        exact .broadcast thread place
      · cases moved
  | unlock thread =>
      simp only [step, Option.map_eq_some_iff] at moved
      obtain ⟨place, goes, rfl⟩ := moved
      exact .unlock thread place goes
  | signal thread sleeper =>
      simp only [step, Option.ite_none_right_eq_some] at moved
      obtain ⟨place, moved⟩ := moved
      cases sleeper with
      | none =>
          simp only [signal, Option.ite_none_right_eq_some, Option.some.injEq] at moved
          obtain ⟨sleepless, rfl⟩ := moved
          exact .unheard thread place sleepless
      | some sleeper =>
          simp only [signal, Option.ite_none_right_eq_some, Option.some.injEq] at moved
          obtain ⟨sleeps, rfl⟩ := moved
          exact .signal thread sleeper place sleeps
  | spurious thread =>
      simp only [step, Option.ite_none_right_eq_some, Option.some.injEq] at moved
      obtain ⟨place, rfl⟩ := moved
      exact .spurious thread place
  | delete thread =>
      simp only [step] at moved
      split at moved
      · rename_i node place
        cases moved
        exact .delete thread node place
      · cases moved

end AsrServer.WaitList
