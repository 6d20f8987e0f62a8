import AsrServer.WorkQueue

/-!
No wake-up is lost. `put` signals outside the mutex and once for each node, and a
consumer that never slept may take the node the signal was for. What holds all the
same: while the list is alive and somebody sleeps, the nodes in the list are at most as
many as the signals still to be sent and the consumers that are about to look. Each
signal sent turns into a woken consumer, and a consumer only goes to sleep when
there is no node at all.
-/

namespace AsrServer.WaitList

open AsrServer.Ring Transition

variable {Thread Node : Type*} [DecidableEq Thread] [DecidableEq Node]

/-! The mutex is what makes a critical section one step. -/

def Place.holds {Node : Type*} : Place Node → Bool
  | .adding _ | .added | .testing | .taken _ | .clearing | .broadcasting | .flushed => true
  | _ => false

def Exclusive (state : State Thread Node) : Prop :=
  ∀ thread, (state.places thread).holds = true → state.mutex = some thread

omit [DecidableEq Node] in
theorem at_exclusive {state : State Thread Node} (exclusive : Exclusive state) (thread : Thread)
    (place : Place Node) (keeps : place.holds = true → (state.places thread).holds = true) :
    Exclusive (state.at thread place) := by
  intro other holds
  rcases update_cases Place.holds holds with ⟨rfl, held⟩ | ⟨_, held⟩
  · exact exclusive other (keeps held)
  · exact exclusive other held

omit [DecidableEq Node] in
theorem leave_exclusive {state : State Thread Node} (exclusive : Exclusive state)
    (thread : Thread) (place : Place Node) (inside : (state.places thread).holds = true)
    (outside : place.holds = false) :
    Exclusive { state.at thread place with mutex := none } := by
  intro other holds
  rcases update_cases Place.holds holds with ⟨_, held⟩ | ⟨apart, held⟩
  · rw [outside] at held
    cases held
  · have both := (exclusive other held).symm.trans (exclusive thread inside)
    exact absurd (Option.some.inj both) apart

theorem broadcast_rouses (state : State Thread Node) (thread other : Thread) :
    (broadcast state thread).places other ≠ .asleep := by
  intro sleeps
  rw [broadcast_places] at sleeps
  have slept := before_update sleeps (by simp)
  by_cases asleep : state.places other = .asleep
  · rw [if_pos asleep] at slept
    cases slept
  · rw [if_neg asleep] at slept
    exact asleep slept

theorem Moved.exclusive {before after : State Thread Node} (moved : Moved before after)
    (exclusive : Exclusive before) : Exclusive after := by
  cases moved with
  | callPut thread node place | callGet thread place | callFlush thread place
  | put thread node place | drop thread node place | take thread place
  | unfollowed thread place | leave thread place | clear thread place
  | unheard thread place | spurious thread place | delete thread node place =>
      apply at_exclusive exclusive thread
      simp [place, Place.holds]
  | sleep thread place =>
      exact leave_exclusive exclusive thread _ (by simp [place, Place.holds]) rfl
  | lock thread place goes free =>
      intro other holds
      rcases update_cases Place.holds holds with ⟨rfl, _⟩ | ⟨_, held⟩
      · rfl
      · have owner := exclusive other held
        rw [free] at owner
        cases owner
  | unlock thread place goes =>
      apply leave_exclusive exclusive thread
      · rcases unlocked_cases _ _ goes with ⟨held, _⟩ | ⟨node, held, _⟩ | ⟨held | held, _⟩ <;>
          simp [held, Place.holds]
      · rcases unlocked_cases _ _ goes with ⟨_, rfl⟩ | ⟨node, _, rfl⟩ | ⟨_, rfl⟩ <;> rfl
  | signal thread sleeper place sleeps =>
      have first := at_exclusive exclusive sleeper .woken (by simp [Place.holds])
      exact at_exclusive first thread .idle (by simp [Place.holds])
  | broadcast thread place =>
      intro other holds
      rw [broadcast_places] at holds
      rcases update_cases Place.holds holds with ⟨rfl, _⟩ | ⟨_, held⟩
      · exact exclusive other (by simp [place, Place.holds])
      · by_cases sleeps : before.places other = .asleep
        · simp [sleeps, Place.holds] at held
        · rw [if_neg sleeps] at held
          exact exclusive other held

/-! Nodes against signals and awake consumers. -/

def Place.weight {Node : Type*} : Place Node → Nat
  | .added | .signalling | .testing | .woken => 1
  | _ => 0

section Count
variable [Fintype Thread]

def Covered (state : State Thread Node) : Prop :=
  state.alive = true → (∃ thread, state.places thread = .asleep) →
    state.num ≤ ((∑ thread, (state.places thread).weight : Nat) : Int)

omit [DecidableEq Node] in
theorem Covered.move {before after : State Thread Node} (covered : Covered before)
    (thread : Thread) (place : Place Node)
    (places : after.places = Function.update before.places thread place)
    (alive : after.alive = before.alive) (wakes : place ≠ .asleep)
    (gain : after.num + (before.places thread).weight ≤ before.num + place.weight) :
    Covered after := by
  intro runs sleeper
  have slept : ∃ other, before.places other = .asleep := by
    obtain ⟨other, sleeps⟩ := sleeper
    rw [places] at sleeps
    exact ⟨other, before_update sleeps wakes⟩
  have counts := covered (alive ▸ runs) slept
  have sums := sum_update Place.weight before.places thread place
  rw [places]
  omega

theorem Moved.covered {before after : State Thread Node} (moved : Moved before after)
    (sound : Sound before) (covered : Covered before) : Covered after := by
  cases moved with
  | callPut thread node place | callGet thread place | callFlush thread place
  | put thread node place | take thread place | spurious thread place
  | delete thread node place =>
      refine covered.move thread _ rfl rfl ?_ ?_
      · intro same
        cases same
      · simp only [at_num, place, Place.weight]
        omega
  | lock thread place goes =>
      refine covered.move thread place rfl rfl ?_ ?_
      · rcases locked_cases _ _ goes with ⟨node, _, rfl⟩ | ⟨_, rfl⟩ | ⟨_, rfl⟩ <;> simp
      · have lighter : (before.places thread).weight ≤ place.weight := by
          rcases locked_cases _ _ goes with ⟨node, held, rfl⟩ | ⟨held | held, rfl⟩ | ⟨held, rfl⟩ <;>
            simp [held, Place.weight]
        exact Int.add_le_add_left (Int.ofNat_le.mpr lighter) _
  | unlock thread place goes =>
      refine covered.move thread place rfl rfl ?_ ?_
      · rcases unlocked_cases _ _ goes with ⟨_, rfl⟩ | ⟨node, _, rfl⟩ | ⟨_, rfl⟩ <;> simp
      · have lighter : (before.places thread).weight ≤ place.weight := by
          rcases unlocked_cases _ _ goes with
            ⟨held, rfl⟩ | ⟨node, held, rfl⟩ | ⟨held | held, rfl⟩ <;>
            simp [held, Place.weight]
        exact Int.add_le_add_left (Int.ofNat_le.mpr lighter) _
  | drop thread node place dead =>
      intro alive
      exact absurd (dead.symm.trans alive) (by decide)
  | leave thread place dead =>
      intro alive
      exact absurd (dead.symm.trans alive) (by decide)
  | clear thread place =>
      intro alive
      cases alive
  | unfollowed thread place alive nonempty nothing =>
      exact absurd nothing (WaitList.unfollowed sound nonempty)
  | sleep thread place alive empty =>
      -- Whoever goes to sleep has seen no node.
      intro _ _
      obtain ⟨ring, queue, _⟩ := sound
      have bare := queue.linked.empty_iff.mp empty
      have zero : before.num = 0 := by rw [queue.count, bare]; rfl
      change before.num ≤ _
      omega
  | unheard thread place nobody =>
      rintro _ ⟨other, sleeps⟩
      exact absurd (before_update sleeps (by simp)) (nobody other)
  | broadcast thread place =>
      rintro _ ⟨other, sleeps⟩
      exact absurd sleeps (broadcast_rouses before thread other)
  | signal thread sleeper place sleeps =>
      have apart : thread ≠ sleeper := by
        rintro rfl
        rw [place] at sleeps
        cases sleeps
      intro alive still
      have slept : ∃ other, before.places other = .asleep := ⟨sleeper, sleeps⟩
      have counts := covered alive slept
      have first := sum_update Place.weight before.places sleeper .woken
      have second := sum_update Place.weight (Function.update before.places sleeper .woken)
        thread .idle
      rw [Function.update_of_ne apart, place] at second
      rw [sleeps] at first
      simp only [State.at, Place.weight] at *
      omega

end Count

/-! After the broadcast nobody sleeps, and with `_alive` cleared nobody goes to sleep. -/

structure Flushed (state : State Thread Node) : Prop where
  cleared : ∀ thread, state.places thread = .broadcasting → state.alive = false
  dead : state.awake = true → state.alive = false
  roused : state.awake = true → ∀ thread, state.places thread ≠ .asleep

omit [DecidableEq Node] in
theorem Flushed.move {before after : State Thread Node} (flushed : Flushed before)
    (thread : Thread) (place : Place Node)
    (places : after.places = Function.update before.places thread place)
    (alive : after.alive = before.alive) (awake : after.awake = before.awake)
    (calm : place ≠ .broadcasting ∧ place ≠ .asleep) : Flushed after := by
  constructor
  · intro other broadcasts
    rw [places] at broadcasts
    rw [alive]
    exact flushed.cleared other (before_update broadcasts calm.1)
  · rw [awake, alive]
    exact flushed.dead
  · intro rouses other sleeps
    rw [awake] at rouses
    rw [places] at sleeps
    exact flushed.roused rouses other (before_update sleeps calm.2)

theorem Moved.flushed {before after : State Thread Node} (moved : Moved before after)
    (flushed : Flushed before) : Flushed after := by
  cases moved with
  | callPut thread | callGet thread | callFlush thread | put thread | drop thread
  | take thread | unfollowed thread | leave thread | unheard thread | spurious thread
  | delete thread => exact flushed.move thread _ rfl rfl rfl (by simp)
  | lock thread place goes =>
      refine flushed.move thread place rfl rfl rfl ?_
      rcases locked_cases _ _ goes with ⟨node, _, rfl⟩ | ⟨_, rfl⟩ | ⟨_, rfl⟩ <;> simp
  | unlock thread place goes =>
      refine flushed.move thread place rfl rfl rfl ?_
      rcases unlocked_cases _ _ goes with ⟨_, rfl⟩ | ⟨node, _, rfl⟩ | ⟨_, rfl⟩ <;> simp
  | signal thread sleeper =>
      have woken : Flushed (before.at sleeper .woken) :=
        flushed.move sleeper .woken rfl rfl rfl (by simp)
      exact woken.move thread .idle rfl rfl rfl (by simp)
  | clear thread =>
      constructor
      · intro _ _
        rfl
      · intro _
        rfl
      · intro rouses other sleeps
        exact flushed.roused rouses other (before_update sleeps (by simp))
  | broadcast thread place =>
      have dead := flushed.cleared thread place
      constructor
      · intro _ _
        exact dead
      · intro _
        exact dead
      · intro _ other
        exact broadcast_rouses before thread other
  | sleep thread place alive =>
      -- The list is alive, so no broadcast has happened yet.
      have quiet : before.awake ≠ true := by
        intro rouses
        have dead := flushed.dead rouses
        rw [alive] at dead
        cases dead
      constructor
      · intro other broadcasts
        exact flushed.cleared other (before_update broadcasts (by simp))
      · intro rouses
        exact absurd rouses quiet
      · intro rouses
        exact absurd rouses quiet

/-- The lost wake-up: a node waits, a consumer sleeps, no signal is on its way and
nobody is about to look. -/
structure Lost (state : State Thread Node) : Prop where
  alive : state.alive = true
  waiting : is_empty state.head state.links = false
  asleep : ∃ thread, state.places thread = .asleep
  signals : ∀ thread, state.places thread ≠ .added ∧ state.places thread ≠ .signalling
  looks : ∀ thread, state.places thread ≠ .woken ∧ state.places thread ≠ .testing

section Runs
variable [Fintype Thread]

theorem exclusive_reached {state : State Thread Node}
    (reached : Reachable step Constructed state) : Exclusive state := by
  apply ReachableWhile.invariant Exclusive _ _ reached
  · rintro _ ⟨head, links, rfl⟩ thread holds
    cases holds
  · intro before action after _ _ exclusive moved
    exact (step_moved before after action moved).exclusive exclusive

/-- The critical sections exclude each other, which is why each can be one step. -/
theorem mutual_exclusion {state : State Thread Node}
    (reached : Reachable step Constructed state) (first second : Thread)
    (one : (state.places first).holds = true) (two : (state.places second).holds = true) :
    first = second := by
  have exclusive := exclusive_reached reached
  exact Option.some.inj ((exclusive first one).symm.trans (exclusive second two))

theorem covered_reached {state : State Thread Node}
    (reached : Reachable step Constructed state) : Covered state := by
  apply ReachableWhile.invariant Covered _ _ reached
  · rintro _ ⟨head, links, rfl⟩ _ ⟨thread, sleeps⟩
    cases sleeps
  · intro before action after earlier _ covered moved
    exact (step_moved before after action moved).covered (sound_reached earlier) covered

theorem flushed_reached {state : State Thread Node}
    (reached : Reachable step Constructed state) : Flushed state := by
  apply ReachableWhile.invariant Flushed _ _ reached
  · rintro _ ⟨head, links, rfl⟩
    constructor
    · intro thread broadcasts
      cases broadcasts
    · intro rouses
      cases rouses
    · intro rouses
      cases rouses
  · intro before action after _ _ flushed moved
    exact (step_moved before after action moved).flushed flushed

/-- No schedule loses a wake-up, and the broadcast of `flush` leaves nobody asleep. -/
theorem no_lost_wakeup (state : State Thread Node) (reached : Reachable step Constructed state) :
    ¬ Lost state ∧ (state.awake = true → ∀ thread, state.places thread ≠ .asleep) := by
  constructor
  · intro lost
    obtain ⟨ring, queue, _⟩ := sound_reached reached
    have counts := covered_reached reached lost.alive lost.asleep
    have nothing : ∑ thread, (state.places thread).weight = 0 := by
      apply Finset.sum_eq_zero
      intro thread _
      have signals := lost.signals thread
      have looks := lost.looks thread
      cases place : state.places thread <;> simp_all [Place.weight]
    rw [nothing, queue.count] at counts
    have lacking : ring = [] := List.length_eq_zero_iff.mp (by omega)
    have empty := queue.linked.empty_iff.mpr lacking
    have waiting := lost.waiting
    simp [is_empty, empty] at waiting
  · exact (flushed_reached reached).roused

/-- A consumer falls asleep, a node is put and signalled, and before the consumer
is back another one has taken the node; then a flush. -/
theorem no_lost_wakeup_flush : ∃ state : State (Fin 3) (Fin 2),
    (state.got = [1] ∧ state.awake = true) ∧
      ¬ Lost state ∧ (state.awake = true → ∀ thread, state.places thread ≠ .asleep) := by
  obtain ⟨state, reached, shown⟩ := exec_reaches
    (.start ⟨0, ⟨id, id⟩, rfl⟩ : Reachable step Constructed _)
    [.callGet 0, .lock 0, .body 0, .callPut 1 1, .lock 1, .body 1, .unlock 1, .signal 1 (some 0),
      .callGet 2, .lock 2, .body 2, .unlock 2, .lock 0, .body 0,
      .callFlush 1, .lock 1, .body 1, .body 1]
    (fun state : State (Fin 3) (Fin 2) => decide (state.got = [1] ∧ state.awake = true))
    (by decide +kernel)
  exact ⟨state, of_decide_eq_true shown, no_lost_wakeup state reached⟩

end Runs

end AsrServer.WaitList
