import AsrServer.Barrier

/-!
The life of the threads of a `task_base`. `open` creates them one by one; each waits in the
barrier for the others and for the thread that calls `activate` before it runs `svc`, and
`join` waits for them one after the other and then destroys the barrier. The calls may be
made in every order that `main`, `stop` and the destructor allow, and the creation of any
thread may fail. The barrier counts in `unsigned` and the array is allocated in `size_t`:
`thread_num + 1` is below 2^32. To `task_base` a call of `svc` is one step, which returns, and
a `join` from `stop` is the same as one from the destructor.
-/

namespace AsrServer.TaskBase

open Transition

inductive Thread where
  | absent
  | started
  | waiting
  | serving
  | returned
  deriving DecidableEq, Repr

/-- Where the thread that owns the object stands. `rejected` and `refused` are the returns
of -1 before the array is allocated and after a failed `pthread_create`. -/
inductive Owner where
  | fresh
  | rejected
  | opening (i : Nat)
  | refused
  | opened
  | activating
  | active
  | joining (i : Nat)
  | joined
  deriving DecidableEq, Repr

/-- The owner comes to the barrier too. -/
abbrev Party (thread_num : Nat) := Option (Fin thread_num)

structure State (thread_num : Nat) where
  owner : Owner
  m_thread_num : Nat
  threads : Fin thread_num → Thread
  m_barrier : Barrier.State (Party thread_num)

inductive Action (thread_num : Nat) where
  | setup (succeeds : Bool)
  | create (succeeds : Bool)
  | opened
  | activate
  | activated
  | stop
  | join
  | wait (thread : Fin thread_num)
  | run (thread : Fin thread_num)
  | finish (thread : Fin thread_num)
  deriving DecidableEq, Repr

variable {thread_num : Nat}

def State.initial (thread_num : Nat) : State thread_num :=
  ⟨.fresh, 0, fun _ => .absent, .initial⟩

def State.thread (state : State thread_num) (i : Nat) : Thread :=
  if inside : i < thread_num then state.threads ⟨i, inside⟩ else .absent

def State.move (state : State thread_num) (thread : Fin thread_num) (place : Thread) :
    State thread_num :=
  { state with threads := Function.update state.threads thread place }

def State.enter (state : State thread_num) (party : Party thread_num) :
    Option (State thread_num) :=
  (Barrier.enter (thread_num + 1) state.m_barrier party).map fun barrier =>
    { state with m_barrier := barrier }

def State.leave (state : State thread_num) (party : Party thread_num) :
    Option (State thread_num) :=
  (Barrier.leave state.m_barrier party).map fun barrier => { state with m_barrier := barrier }

/-- `open` up to the creation of the threads: the stack size, the number and the array. -/
def setup (state : State thread_num) (succeeds : Bool) : Option (State thread_num) :=
  match state.owner with
  | .fresh =>
      if succeeds = true ∧ thread_num ≠ 0 then some { state with owner := .opening 0 }
      else some { state with owner := .rejected }
  | _ => none

def create (state : State thread_num) (succeeds : Bool) : Option (State thread_num) :=
  match state.owner with
  | .opening i =>
      if inside : i < thread_num then
        if succeeds then some { state.move ⟨i, inside⟩ .started with owner := .opening (i + 1) }
        else some { state with m_thread_num := i, owner := .refused }
      else none
  | _ => none

def opened (state : State thread_num) : Option (State thread_num) :=
  match state.owner with
  | .opening i =>
      if i = thread_num then some { state with m_thread_num := i, owner := .opened } else none
  | _ => none

def activate (state : State thread_num) : Option (State thread_num) :=
  match state.owner with
  | .opened => (state.enter none).map fun entered => { entered with owner := .activating }
  | _ => none

def activated (state : State thread_num) : Option (State thread_num) :=
  match state.owner with
  | .activating => (state.leave none).map fun left => { left with owner := .active }
  | _ => none

/-- `join` begins, from `stop` or the destructor. With no array there is nothing to do. -/
def stop (state : State thread_num) : Option (State thread_num) :=
  match state.owner with
  | .rejected => some { state with owner := .joined }
  | .refused | .opened | .active => some { state with owner := .joining 0 }
  | _ => none

/-- One turn of the loop of `join`, or its end. The signal only interrupts what `svc` does;
it does not end a wait in the barrier. -/
def join (state : State thread_num) : Option (State thread_num) :=
  match state.owner with
  | .joining i =>
      if i < state.m_thread_num then
        if state.thread i = .returned then some { state with owner := .joining (i + 1) } else none
      else some { state with owner := .joined }
  | _ => none

def wait (state : State thread_num) (thread : Fin thread_num) : Option (State thread_num) :=
  if state.threads thread = .started then
    (state.enter (some thread)).map fun entered => entered.move thread .waiting
  else none

def run (state : State thread_num) (thread : Fin thread_num) : Option (State thread_num) :=
  if state.threads thread = .waiting then
    (state.leave (some thread)).map fun left => left.move thread .serving
  else none

def finish (state : State thread_num) (thread : Fin thread_num) : Option (State thread_num) :=
  if state.threads thread = .serving then some (state.move thread .returned) else none

def step (state : State thread_num) : Action thread_num → Option (State thread_num)
  | .setup succeeds => setup state succeeds
  | .create succeeds => create state succeeds
  | .opened => opened state
  | .activate => activate state
  | .activated => activated state
  | .stop => stop state
  | .join => join state
  | .wait thread => wait state thread
  | .run thread => run state thread
  | .finish thread => finish state thread

/-! How the places agree with the barrier. -/

def Thread.passes : Thread → Nat
  | .absent | .started | .waiting => 0
  | .serving | .returned => 1

def Owner.early : Owner → Prop
  | .active | .joining _ | .joined => False
  | _ => True

structure Meets (state : State thread_num) : Prop where
  sound : Barrier.Sound state.m_barrier
  thread : ∀ t, state.m_barrier.inside (some t) ≠ none ↔ state.threads t = .waiting
  owner : state.m_barrier.inside none ≠ none ↔ state.owner = .activating
  passed : ∀ t, state.m_barrier.rounds (some t) = (state.threads t).passes
  early : state.owner.early → state.m_barrier.rounds none = 0

variable {state : State thread_num}

theorem Meets.initial : Meets (State.initial thread_num) where
  sound := Barrier.initial_sound
  thread := by simp [State.initial, Barrier.State.initial]
  owner := by simp [State.initial, Barrier.State.initial]
  passed := by simp [State.initial, Barrier.State.initial, Thread.passes]
  early := by simp [State.initial, Barrier.State.initial]

theorem Meets.outside (meets : Meets state) {after : State thread_num}
    (barrier : after.m_barrier = state.m_barrier)
    (thread : ∀ t, after.threads t = .waiting ↔ state.threads t = .waiting)
    (passed : ∀ t, (after.threads t).passes = (state.threads t).passes)
    (owner : after.owner = .activating ↔ state.owner = .activating)
    (early : after.owner.early → state.owner.early) : Meets after where
  sound := barrier ▸ meets.sound
  thread t := by rw [barrier, thread, meets.thread]
  owner := by rw [barrier, owner, meets.owner]
  passed t := by rw [barrier, passed, meets.passed]
  early before := by rw [barrier, meets.early (early before)]

theorem card_party : Fintype.card (Party thread_num) = thread_num + 1 := by
  rw [Fintype.card_option, Fintype.card_fin]

def Waits (state : State thread_num) : Party thread_num → Prop
  | none => state.owner = .activating
  | some thread => state.threads thread = .waiting

theorem Meets.inside_iff (meets : Meets state) (party : Party thread_num) :
    state.m_barrier.inside party ≠ none ↔ Waits state party := by
  cases party with
  | none => exact meets.owner
  | some thread => exact meets.thread thread

theorem Meets.entered (meets : Meets state) (party : Party thread_num)
    {after : State thread_num}
    (enters : Barrier.enter (thread_num + 1) state.m_barrier party = some after.m_barrier)
    (waits : ∀ other, Waits after other ↔ other = party ∨ Waits state other)
    (passed : ∀ t, (after.threads t).passes = (state.threads t).passes)
    (early : after.owner.early → state.owner.early) : Meets after := by
  obtain ⟨_, inside, rounds⟩ := Barrier.enter_spec enters
  have agrees (other : Party thread_num) :
      after.m_barrier.inside other ≠ none ↔ Waits after other := by
    rw [inside, waits, ← meets.inside_iff]
    by_cases same : other = party <;> simp [same]
  refine ⟨Barrier.enter_sound meets.sound _ _ (card_party ▸ enters), fun t => agrees (some t),
    agrees none, ?_, ?_⟩
  · intro t
    rw [rounds, passed, meets.passed]
  · intro before
    rw [rounds, meets.early (early before)]

theorem Meets.gone (meets : Meets state) (party : Party thread_num) {after : State thread_num}
    (leaves : Barrier.leave state.m_barrier party = some after.m_barrier)
    (waits : ∀ other, Waits after other ↔ other ≠ party ∧ Waits state other)
    (passed : ∀ t, (after.threads t).passes =
      (state.threads t).passes + if some t = party then 1 else 0)
    (early : after.owner.early → party ≠ none ∧ state.owner.early) : Meets after := by
  obtain ⟨_, inside, rounds⟩ := Barrier.leave_spec leaves
  have agrees (other : Party thread_num) :
      after.m_barrier.inside other ≠ none ↔ Waits after other := by
    rw [inside, waits, ← meets.inside_iff]
    by_cases same : other = party <;> simp [same]
  refine ⟨Barrier.leave_sound meets.sound _ _ leaves, fun t => agrees (some t), agrees none,
    ?_, ?_⟩
  · intro t
    rw [rounds, passed, ← meets.passed]
    by_cases same : some t = party
    · simp [← same]
    · rw [Function.update_of_ne same, if_neg same, Nat.add_zero]
  · intro before
    obtain ⟨other, before⟩ := early before
    rw [rounds, Function.update_of_ne other.symm, meets.early before]

theorem Meets.wait (meets : Meets state) {thread : Fin thread_num} {after : State thread_num}
    (stepped : wait state thread = some after) : Meets after := by
  unfold TaskBase.wait State.enter at stepped
  split at stepped
  · rename_i place
    obtain ⟨_, entered, rfl⟩ := Option.map_eq_some_iff.mp stepped
    obtain ⟨barrier, enters, rfl⟩ := Option.map_eq_some_iff.mp entered
    refine meets.entered (some thread) enters ?_ ?_ id
    · rintro (_ | other)
      · simp [Waits, State.move]
      · by_cases same : other = thread <;> simp [Waits, State.move, same]
    · intro other
      by_cases same : other = thread <;> simp [State.move, same, place, Thread.passes]
  · cases stepped

theorem Meets.run (meets : Meets state) {thread : Fin thread_num} {after : State thread_num}
    (stepped : run state thread = some after) : Meets after := by
  unfold TaskBase.run State.leave at stepped
  split at stepped
  · rename_i place
    obtain ⟨_, left, rfl⟩ := Option.map_eq_some_iff.mp stepped
    obtain ⟨barrier, leaves, rfl⟩ := Option.map_eq_some_iff.mp left
    refine meets.gone (some thread) leaves ?_ ?_ fun before => ⟨Option.some_ne_none _, before⟩
    · rintro (_ | other)
      · simp [Waits, State.move]
      · by_cases same : other = thread <;> simp [Waits, State.move, same]
    · intro other
      by_cases same : other = thread <;> simp [State.move, same, place, Thread.passes]
  · cases stepped

theorem Meets.activate (meets : Meets state) {after : State thread_num}
    (stepped : activate state = some after) : Meets after := by
  unfold TaskBase.activate State.enter at stepped
  split at stepped
  · rename_i place
    obtain ⟨_, entered, rfl⟩ := Option.map_eq_some_iff.mp stepped
    obtain ⟨barrier, enters, rfl⟩ := Option.map_eq_some_iff.mp entered
    refine meets.entered none enters ?_ (fun _ => rfl) fun _ => by rw [place]; trivial
    rintro (_ | thread) <;> simp [Waits]
  · cases stepped

theorem Meets.activated (meets : Meets state) {after : State thread_num}
    (stepped : activated state = some after) : Meets after := by
  unfold TaskBase.activated State.leave at stepped
  split at stepped
  · obtain ⟨_, left, rfl⟩ := Option.map_eq_some_iff.mp stepped
    obtain ⟨barrier, leaves, rfl⟩ := Option.map_eq_some_iff.mp left
    refine meets.gone none leaves ?_ (fun t => by simp) fun before => before.elim
    rintro (_ | thread) <;> simp [Waits]
  · cases stepped

/-! How many threads there are. -/

def State.made (state : State thread_num) : Nat :=
  match state.owner with
  | .opening i => i
  | _ => state.m_thread_num

def State.counted (state : State thread_num) : Prop :=
  match state.owner with
  | .fresh | .rejected => state.m_thread_num = 0
  | .opening i => state.m_thread_num = 0 ∧ i ≤ thread_num
  | .refused => True
  | .opened | .activating | .active => state.m_thread_num = thread_num
  | .joining i => i ≤ state.m_thread_num ∧
      ∀ thread : Fin thread_num, thread < i → state.threads thread = .returned
  | .joined =>
      ∀ thread : Fin thread_num, thread < state.m_thread_num → state.threads thread = .returned

structure Counts (state : State thread_num) : Prop where
  room : state.m_thread_num ≤ thread_num
  created : ∀ thread : Fin thread_num, state.threads thread = .absent ↔ state.made ≤ thread
  owner : state.counted

theorem Counts.initial : Counts (State.initial thread_num) where
  room := Nat.zero_le _
  created thread := by simp [State.initial, State.made]
  owner := rfl

theorem Counts.moved (counts : Counts state) (thread : Fin thread_num) (place : Thread)
    (barrier : Barrier.State (Party thread_num)) (begun : state.threads thread ≠ .absent)
    (going : state.threads thread ≠ .returned) (present : place ≠ .absent) :
    Counts { state.move thread place with m_barrier := barrier } where
  room := counts.room
  created other := by
    have same := counts.created other
    dsimp only [State.move]
    by_cases moved : other = thread
    · subst moved
      rw [Function.update_self]
      exact iff_of_false present (mt same.mpr begun)
    · rw [Function.update_of_ne moved]
      exact same
  owner := by
    have keeps : ∀ other, state.threads other = .returned →
        Function.update state.threads thread place other = .returned := by
      intro other returned
      rw [Function.update_of_ne (by rintro rfl; exact going returned)]
      exact returned
    have known := counts.owner
    unfold State.counted at known ⊢
    dsimp only [State.move]
    split <;> rename_i place <;> simp only [place] at known
    case _ | _ | _ | _ | _ | _ | _ => exact known
    · exact ⟨known.1, fun other before => keeps other (known.2 other before)⟩
    · exact fun other before => keeps other (known other before)

theorem Counts.stays (counts : Counts state) {after : State thread_num}
    (threads : after.threads = state.threads) (room : after.m_thread_num ≤ thread_num)
    (made : after.made = state.made) (owner : after.counted) : Counts after where
  room := room
  created thread := by rw [threads, made, counts.created]
  owner := owner

/-! Both are kept. -/

structure Lives (state : State thread_num) : Prop where
  meets : Meets state
  counts : Counts state

variable {after : State thread_num}

theorem Lives.setup (lives : Lives state) {succeeds : Bool}
    (stepped : setup state succeeds = some after) : Lives after := by
  have number := lives.counts.owner
  unfold TaskBase.setup at stepped
  split at stepped
  · rename_i place
    rw [State.counted, place] at number
    split at stepped <;> cases stepped
    · refine ⟨?_, ?_⟩
      · exact lives.meets.outside rfl (fun _ => .rfl) (fun _ => rfl) (by simp [place])
          (by simp [place, Owner.early])
      · exact lives.counts.stays rfl lives.counts.room (by simp [State.made, place, number])
          ⟨number, Nat.zero_le _⟩
    · refine ⟨?_, ?_⟩
      · exact lives.meets.outside rfl (fun _ => .rfl) (fun _ => rfl) (by simp [place])
          (by simp [place, Owner.early])
      · exact lives.counts.stays rfl lives.counts.room (by simp [State.made, place]) number
  · cases stepped

theorem Lives.create (lives : Lives state) {succeeds : Bool}
    (stepped : create state succeeds = some after) : Lives after := by
  have number := lives.counts.owner
  unfold TaskBase.create at stepped
  split at stepped
  · rename_i i place
    rw [State.counted, place] at number
    split at stepped
    · rename_i inside
      have absent : state.threads ⟨i, inside⟩ = .absent := by
        rw [lives.counts.created, State.made, place]
      -- `pthread_create` succeeds, and one more thread has begun, or fails.
      split at stepped <;> cases stepped
      · refine ⟨lives.meets.outside rfl ?_ ?_ (by simp [place])
          (by simp [place, Owner.early]), lives.counts.room, ?_, number.1, inside⟩
        · intro thread
          by_cases same : thread = ⟨i, inside⟩
          · simp [State.move, same, absent]
          · simp [State.move, Function.update_of_ne same]
        · intro thread
          by_cases same : thread = ⟨i, inside⟩
          · simp [State.move, same, absent, Thread.passes]
          · simp [State.move, Function.update_of_ne same]
        · intro thread
          have created := lives.counts.created thread
          simp only [State.made, place] at created
          by_cases same : thread = ⟨i, inside⟩
          · simp [State.move, State.made, same]
          · have differs : (thread : Nat) ≠ i := fun equal => same (Fin.ext equal)
            simp only [State.move, State.made, Function.update_of_ne same, created]
            omega
      · refine ⟨?_, ?_⟩
        · exact lives.meets.outside rfl (fun _ => .rfl) (fun _ => rfl) (by simp [place])
            (by simp [place, Owner.early])
        · exact lives.counts.stays rfl inside.le (by simp [State.made, place]) trivial
    · cases stepped
  · cases stepped

theorem Lives.opened (lives : Lives state) (stepped : opened state = some after) :
    Lives after := by
  unfold TaskBase.opened at stepped
  split at stepped
  · rename_i i place
    split at stepped
    · rename_i all
      cases stepped
      refine ⟨?_, ?_⟩
      · exact lives.meets.outside rfl (fun _ => .rfl) (fun _ => rfl) (by simp [place])
          (by simp [place, Owner.early])
      · exact lives.counts.stays rfl all.le (by simp [State.made, place]) all
    · cases stepped
  · cases stepped

theorem Lives.stop (lives : Lives state) (stepped : stop state = some after) :
    Lives after := by
  have number := lives.counts.owner
  unfold TaskBase.stop at stepped
  split at stepped
  · rename_i place
    rw [State.counted, place] at number
    cases stepped
    refine ⟨?_, ?_⟩
    · exact lives.meets.outside rfl (fun _ => .rfl) (fun _ => rfl) (by simp [place])
        (by simp [Owner.early])
    · refine lives.counts.stays rfl lives.counts.room (by simp [State.made, place]) ?_
      intro thread before
      simp only [number, Nat.not_lt_zero] at before
  case _ place | _ place | _ place =>
    cases stepped
    refine ⟨?_, ?_⟩
    · exact lives.meets.outside rfl (fun _ => .rfl) (fun _ => rfl) (by simp [place])
        (by simp [Owner.early])
    · exact lives.counts.stays rfl lives.counts.room (by simp [State.made, place])
        ⟨Nat.zero_le _, fun _ before => absurd before (Nat.not_lt_zero _)⟩
  · cases stepped

theorem Lives.join (lives : Lives state) (stepped : join state = some after) :
    Lives after := by
  have number := lives.counts.owner
  unfold TaskBase.join at stepped
  split at stepped
  · rename_i i place
    rw [State.counted, place] at number
    have outside (owner : Owner) (quiet : owner ≠ .activating) (late : ¬ owner.early) :
        Meets { state with owner := owner } :=
      lives.meets.outside rfl (fun _ => .rfl) (fun _ => rfl)
        (by simp [place, quiet]) (fun early => absurd early late)
    split at stepped
    · rename_i more
      split at stepped <;> cases stepped
      rename_i returned
      refine ⟨outside _ (by simp) id, ?_⟩
      refine lives.counts.stays rfl lives.counts.room (by simp [State.made, place]) ⟨more, ?_⟩
      intro thread before
      rcases Nat.lt_succ_iff_lt_or_eq.mp before with earlier | same
      · exact number.2 thread earlier
      · simpa [State.thread, ← same] using returned
    · cases stepped
      refine ⟨outside _ (by simp) id, ?_⟩
      refine lives.counts.stays rfl lives.counts.room (by simp [State.made, place]) ?_
      intro thread before
      exact number.2 thread (by dsimp only at before; omega)
  · cases stepped

theorem Lives.activate (lives : Lives state) (stepped : activate state = some after) :
    Lives after := by
  refine ⟨lives.meets.activate stepped, ?_⟩
  have number := lives.counts.owner
  unfold TaskBase.activate State.enter at stepped
  split at stepped
  · rename_i place
    rw [State.counted, place] at number
    obtain ⟨_, entered, rfl⟩ := Option.map_eq_some_iff.mp stepped
    obtain ⟨barrier, _, rfl⟩ := Option.map_eq_some_iff.mp entered
    exact lives.counts.stays rfl lives.counts.room (by simp [State.made, place]) number
  · cases stepped

theorem Lives.activated (lives : Lives state) (stepped : activated state = some after) :
    Lives after := by
  refine ⟨lives.meets.activated stepped, ?_⟩
  have number := lives.counts.owner
  unfold TaskBase.activated State.leave at stepped
  split at stepped
  · rename_i place
    rw [State.counted, place] at number
    obtain ⟨_, left, rfl⟩ := Option.map_eq_some_iff.mp stepped
    obtain ⟨barrier, _, rfl⟩ := Option.map_eq_some_iff.mp left
    exact lives.counts.stays rfl lives.counts.room (by simp [State.made, place]) number
  · cases stepped

theorem Lives.wait (lives : Lives state) {thread : Fin thread_num}
    (stepped : wait state thread = some after) : Lives after := by
  refine ⟨lives.meets.wait stepped, ?_⟩
  unfold TaskBase.wait State.enter at stepped
  split at stepped
  · rename_i place
    obtain ⟨_, entered, rfl⟩ := Option.map_eq_some_iff.mp stepped
    obtain ⟨barrier, _, rfl⟩ := Option.map_eq_some_iff.mp entered
    exact lives.counts.moved thread .waiting barrier (by simp [place]) (by simp [place])
      (by simp)
  · cases stepped

theorem Lives.run (lives : Lives state) {thread : Fin thread_num}
    (stepped : run state thread = some after) : Lives after := by
  refine ⟨lives.meets.run stepped, ?_⟩
  unfold TaskBase.run State.leave at stepped
  split at stepped
  · rename_i place
    obtain ⟨_, left, rfl⟩ := Option.map_eq_some_iff.mp stepped
    obtain ⟨barrier, _, rfl⟩ := Option.map_eq_some_iff.mp left
    exact lives.counts.moved thread .serving barrier (by simp [place]) (by simp [place])
      (by simp)
  · cases stepped

theorem Lives.finish (lives : Lives state) {thread : Fin thread_num}
    (stepped : finish state thread = some after) : Lives after := by
  unfold TaskBase.finish at stepped
  split at stepped
  · rename_i place
    cases stepped
    refine ⟨lives.meets.outside rfl ?_ ?_ .rfl id, ?_⟩
    · intro other
      by_cases same : other = thread
      · simp [State.move, same, place]
      · simp [State.move, Function.update_of_ne same]
    · intro other
      by_cases same : other = thread
      · simp [State.move, same, place, Thread.passes]
      · simp [State.move, Function.update_of_ne same]
    · exact lives.counts.moved thread .returned state.m_barrier (by simp [place])
        (by simp [place]) (by simp)
  · cases stepped

theorem step_lives (lives : Lives state) (action : Action thread_num)
    (stepped : step state action = some after) : Lives after := by
  cases action with
  | setup => exact lives.setup stepped
  | create => exact lives.create stepped
  | opened => exact lives.opened stepped
  | activate => exact lives.activate stepped
  | activated => exact lives.activated stepped
  | stop => exact lives.stop stepped
  | join => exact lives.join stepped
  | wait => exact lives.wait stepped
  | run => exact lives.run stepped
  | finish => exact lives.finish stepped

theorem reached_lives (reached : Reachable step (· = State.initial thread_num) state) :
    Lives state := by
  refine reached.invariant Lives ?_ ?_
  · rintro _ rfl
    exact ⟨Meets.initial, Counts.initial⟩
  · intro before action after _ _ lives stepped
    exact step_lives lives action stepped

/-! What the barrier and `join` give. -/

theorem Lives.joined_places (lives : Lives state) (joined : state.owner = .joined)
    (thread : Fin thread_num) :
    state.threads thread = .absent ∨ state.threads thread = .returned := by
  have number := lives.counts.owner
  rw [State.counted, joined] at number
  by_cases made : (thread : Nat) < state.m_thread_num
  · exact Or.inr (number thread made)
  · left
    rw [lives.counts.created]
    simp only [State.made, joined]
    omega

/-- No thread runs `svc` before all are created and have come, and `activate` was called;
and when `join` is over every thread has returned, and nobody is in the barrier that it
destroys. -/
theorem opens_together (reached : Reachable step (· = State.initial thread_num) state) :
    (∀ thread, state.threads thread = .serving ∨ state.threads thread = .returned →
      0 < state.m_barrier.begun none ∧
        ∀ other, state.threads other ≠ .absent ∧ state.threads other ≠ .started) ∧
    (state.owner = .joined →
      (∀ thread, state.threads thread = .absent ∨ state.threads thread = .returned) ∧
        ∀ party, state.m_barrier.inside party = none) := by
  have lives := reached_lives reached
  refine ⟨?_, ?_⟩
  · intro thread ran
    have passed : state.m_barrier.rounds (some thread) = 1 := by
      rw [lives.meets.passed]
      rcases ran with ran | ran <;> rw [ran] <;> rfl
    have come := lives.meets.sound.together (some thread)
    rw [passed] at come
    refine ⟨come none, fun other => ?_⟩
    have there := come (some other)
    unfold Barrier.State.begun at there
    rw [lives.meets.passed] at there
    have idle : state.threads other ≠ .waiting →
        state.m_barrier.inside (some other) = none := by
      intro elsewhere
      by_contra inside
      exact elsewhere ((lives.meets.thread other).mp inside)
    constructor <;> intro place <;> rw [idle (by simp [place]), place] at there <;>
      exact absurd there (by decide)
  · intro joined
    have places := lives.joined_places joined
    refine ⟨places, ?_⟩
    rintro (_ | thread)
    · by_contra inside
      have place := lives.meets.owner.mp inside
      rw [joined] at place
      cases place
    · by_contra inside
      have place := (lives.meets.thread thread).mp inside
      rcases places thread with there | there <;> rw [there] at place <;> cases place

/-- The second thread has not come out of the barrier yet. -/
theorem opens_together_second :
    ∃ state : State 2, Reachable step (· = State.initial 2) state ∧
      state.threads 0 = .serving ∧ state.threads 1 = .waiting ∧
      0 < state.m_barrier.begun none ∧
      ∀ other, state.threads other ≠ .absent ∧ state.threads other ≠ .started := by
  have start : Reachable step (· = State.initial 2) (State.initial 2) := .start rfl
  obtain ⟨state, reached, shown⟩ :=
    exec_reaches start
      [.setup true, .create true, .wait 0, .create true, .opened, .activate, .wait 1, .run 0]
      (fun state => state.threads 0 = .serving ∧ state.threads 1 = .waiting) (by decide)
  obtain ⟨serving, waiting⟩ := of_decide_eq_true shown
  obtain ⟨activated, all⟩ := (opens_together reached).1 0 (Or.inl serving)
  exact ⟨state, reached, serving, waiting, activated, all⟩

end AsrServer.TaskBase
