import AsrServer.WaitList

/-!
The work queue is an exactly-once FIFO. The ring behind `_head`, read against
its links, is what has been put and not been taken, in the order of the puts.
That a put node is not in the ring already comes from who has it: an allocated
node is in one thread's hands or in the ring.
-/

namespace AsrServer.WaitList

open AsrServer.Ring Transition

variable {Thread Node : Type*} [DecidableEq Thread] [DecidableEq Node]

def Place.node {Node : Type*} : Place Node → Option Node
  | .putting node | .adding node | .taken (some node) | .serving node => some node
  | _ => none

structure Owned (state : State Thread Node) (ring : List Node) : Prop where
  has : ∀ thread node, (state.places thread).node = some node →
    state.live node = true ∧ node ≠ state.head ∧ node ∉ ring
  once : ∀ first second node, (state.places first).node = some node →
    (state.places second).node = some node → first = second
  queued : ∀ node ∈ ring, state.live node = true

structure Queue (state : State Thread Node) (ring : List Node) : Prop where
  linked : IsRing state.links state.head ring
  count : state.num = ring.length
  order : state.got ++ ring.reverse <+: state.put
  whole : state.alive = true → state.got ++ ring.reverse = state.put

/-- Some ring holds the waiting nodes, and every node has one place. -/
def Sound (state : State Thread Node) : Prop := ∃ ring, Queue state ring ∧ Owned state ring

omit [DecidableEq Thread] in
theorem initial_sound (head : Node) (links : Links Node) :
    Sound (State.initial head links : State Thread Node) := by
  refine ⟨[], ⟨?_, rfl, List.prefix_rfl, fun _ => rfl⟩, ⟨?_, ?_, ?_⟩⟩
  · exact alone _ _ (by simp [State.initial, emptied]) (by simp [State.initial, emptied])
  · intro thread node has
    cases has
  · intro first second node has
    cases has
  · intro node member
    cases member

/-! Steps that leave the list as it is, and take no node into a thread's hands. -/

def Fewer (before after : State Thread Node) : Prop :=
  ∀ thread node, (after.places thread).node = some node →
    (before.places thread).node = some node

omit [DecidableEq Node] in
theorem at_fewer (state : State Thread Node) (thread : Thread) (place : Place Node)
    (keeps : ∀ node, place.node = some node → (state.places thread).node = some node) :
    Fewer state (state.at thread place) := by
  intro other node has
  rcases update_cases Place.node has with ⟨rfl, held⟩ | ⟨_, held⟩
  · exact keeps node held
  · exact held

theorem broadcast_places (state : State Thread Node) (thread : Thread) :
    (broadcast state thread).places = Function.update (fun other =>
      if state.places other = .asleep then .woken else state.places other) thread .flushed :=
  rfl

theorem broadcast_fewer (state : State Thread Node) (thread : Thread) :
    Fewer state (broadcast state thread) := by
  intro other node has
  rw [broadcast_places] at has
  rcases update_cases Place.node has with ⟨_, held⟩ | ⟨_, held⟩
  · cases held
  · by_cases sleeps : state.places other = .asleep
    · simp [sleeps, Place.node] at held
    · rwa [if_neg sleeps] at held

omit [DecidableEq Node] [DecidableEq Thread] in
theorem Owned.fewer {before after : State Thread Node} {ring : List Node}
    (owned : Owned before ring) (head : after.head = before.head)
    (live : after.live = before.live) (fewer : Fewer before after) : Owned after ring := by
  constructor
  · intro thread node has
    rw [live, head]
    exact owned.has thread node (fewer thread node has)
  · intro first second node one two
    exact owned.once first second node (fewer first node one) (fewer second node two)
  · rw [live]
    exact owned.queued

omit [DecidableEq Node] in
theorem locked_node (place next : Place Node) (goes : place.locked = some next) :
    next.node = place.node := by
  rcases locked_cases place next goes with ⟨node, rfl, rfl⟩ | ⟨rfl | rfl, rfl⟩ | ⟨rfl, rfl⟩ <;>
    rfl

omit [DecidableEq Node] in
theorem unlocked_node (place next : Place Node) (goes : place.unlocked = some next) :
    next.node = place.node := by
  rcases unlocked_cases place next goes with ⟨rfl, rfl⟩ | ⟨node, rfl, rfl⟩ | ⟨rfl | rfl, rfl⟩ <;>
    rfl

/-! The two steps that change the ring. -/

theorem Sound.put {before : State Thread Node} {thread : Thread} {node : Node}
    (sound : Sound before) (place : before.places thread = .adding node)
    (alive : before.alive = true) :
    Sound { before.at thread .added with
      put := before.put ++ [node]
      links := add before.head node before.links
      num := before.num + 1 } := by
  obtain ⟨ring, queue, owned⟩ := sound
  have mine : (before.places thread).node = some node := by rw [place]; rfl
  obtain ⟨live, apart, outside⟩ := owned.has thread node mine
  refine ⟨node :: ring, ⟨?_, ?_, ?_, ?_⟩, ?_⟩
  · exact queue.linked.insert (by simp [apart, outside])
  · simp [queue.count]
  · simp [State.at, ← queue.whole alive]
  · intro _
    simp [State.at, ← queue.whole alive]
  · have others : ∀ other value, ((before.at thread .added).places other).node = some value →
        (before.places other).node = some value ∧ other ≠ thread := by
      intro other value has
      rcases update_cases Place.node has with ⟨_, held⟩ | ⟨apart, held⟩
      · cases held
      · exact ⟨held, apart⟩
    constructor
    · intro other value has
      obtain ⟨held, distinct⟩ := others other value has
      obtain ⟨lives, away, absent⟩ := owned.has other value held
      refine ⟨lives, away, ?_⟩
      rw [List.mem_cons, not_or]
      refine ⟨?_, absent⟩
      rintro rfl
      exact distinct (owned.once other thread value held mine)
    · intro first second value one two
      exact owned.once first second value (others first value one).1 (others second value two).1
    · intro value member
      rcases List.mem_cons.mp member with rfl | queued
      · exact live
      · exact owned.queued value queued

theorem Sound.take {before : State Thread Node} {thread : Thread}
    (sound : Sound before) (place : before.places thread = .testing)
    (alive : before.alive = true) (nonempty : before.links.next before.head ≠ before.head) :
    Sound { before.at thread (.taken (before.links.prev before.head)) with
      links := del (before.links.prev before.head) before.links
      num := before.num - 1
      got := before.got ++ [before.links.prev before.head] } := by
  obtain ⟨ring, queue, owned⟩ := sound
  rcases List.eq_nil_or_concat ring with empty | ⟨front, last, same⟩
  · exact absurd (queue.linked.empty_iff.mpr empty) nonempty
  · rw [List.concat_eq_append] at same
    subst same
    have oldest := queue.linked.last
    have nodup := (List.nodup_cons.mp queue.linked.nodup).2
    have absent : last ∉ front := fun member =>
      List.disjoint_of_nodup_append nodup member (List.mem_singleton.mpr rfl)
    rw [oldest]
    refine ⟨front, ⟨?_, ?_, ?_, ?_⟩, ?_⟩
    · have shorter := queue.linked.remove
      rwa [List.append_nil] at shorter
    · simp [queue.count]
    · simpa [State.at] using queue.order
    · intro _
      simpa [State.at] using queue.whole alive
    · have others : ∀ other value,
          ((before.at thread (.taken last)).places other).node = Option.some value →
          (other = thread ∧ value = last) ∨
            (other ≠ thread ∧ (before.places other).node = Option.some value) := by
        intro other value has
        rcases update_cases Place.node has with ⟨rfl, held⟩ | others
        · exact Or.inl ⟨rfl, (Option.some.inj held).symm⟩
        · exact Or.inr others
      have free : ∀ other, (before.places other).node ≠ Option.some last :=
        fun other held => (owned.has other last held).2.2 (by simp)
      constructor
      · intro other value has
        rcases others other value has with ⟨_, rfl⟩ | ⟨_, held⟩
        · refine ⟨owned.queued value (by simp), ?_, absent⟩
          intro same
          have listed : before.head ∈ front ++ [value] := by
            apply List.mem_append_right
            exact List.mem_singleton.mpr same.symm
          exact (List.nodup_cons.mp queue.linked.nodup).1 listed
        · obtain ⟨lives, away, outside⟩ := owned.has other value held
          exact ⟨lives, away, fun member => outside (List.mem_append_left _ member)⟩
      · intro first second value one two
        rcases others first value one with ⟨here, rfl⟩ | ⟨_, held⟩
        · rcases others second value two with ⟨there, _⟩ | ⟨_, held⟩
          · rw [here, there]
          · exact absurd held (free second)
        · rcases others second value two with ⟨_, rfl⟩ | ⟨_, other⟩
          · exact absurd held (free first)
          · exact owned.once first second value held other
      · intro value member
        exact owned.queued value (List.mem_append_left _ member)

omit [DecidableEq Node] [DecidableEq Thread] in
theorem Sound.same {before after : State Thread Node} (sound : Sound before)
    (head : after.head = before.head) (links : after.links = before.links)
    (num : after.num = before.num) (got : after.got = before.got)
    (puts : before.put <+: after.put)
    (alive : after.alive = true → before.alive = true ∧ after.put = before.put)
    (live : after.live = before.live) (fewer : Fewer before after) : Sound after := by
  obtain ⟨ring, queue, owned⟩ := sound
  refine ⟨ring, ⟨?_, ?_, ?_, ?_⟩, owned.fewer head live fewer⟩
  · rw [links, head]
    exact queue.linked
  · rw [num]
    exact queue.count
  · rw [got]
    exact queue.order.trans puts
  · intro runs
    rw [got, (alive runs).2]
    exact queue.whole (alive runs).1

theorem Sound.callPut {before : State Thread Node} {thread : Thread} {node : Node}
    (sound : Sound before) (unused : before.live node = false) (apart : node ≠ before.head) :
    Sound { before.at thread (.putting node) with
      live := Function.update before.live node true } := by
  obtain ⟨ring, queue, owned⟩ := sound
  have absent : node ∉ ring := by
    intro member
    rw [owned.queued node member] at unused
    cases unused
  have others : ∀ other value,
      ((before.at thread (.putting node)).places other).node = some value →
      (other = thread ∧ value = node) ∨ (before.places other).node = some value := by
    intro other value has
    rcases update_cases Place.node has with ⟨rfl, held⟩ | ⟨_, held⟩
    · exact Or.inl ⟨rfl, (Option.some.inj held).symm⟩
    · exact Or.inr held
  have known : ∀ other, (before.places other).node ≠ some node := by
    intro other held
    rw [(owned.has other node held).1] at unused
    cases unused
  refine ⟨ring, ⟨queue.linked, queue.count, queue.order, queue.whole⟩, ?_, ?_, ?_⟩
  · intro other value has
    rcases others other value has with ⟨_, rfl⟩ | held
    · exact ⟨Function.update_self .., apart, absent⟩
    · obtain ⟨lives, away, outside⟩ := owned.has other value held
      exact ⟨by simp [Function.update_apply, lives], away, outside⟩
  · intro first second value one two
    rcases others first value one with ⟨here, rfl⟩ | held
    · rcases others second value two with ⟨there, _⟩ | held
      · rw [here, there]
      · exact absurd held (known second)
    · rcases others second value two with ⟨_, rfl⟩ | other
      · exact absurd held (known first)
      · exact owned.once first second value held other
  · intro value member
    simp [Function.update_apply, owned.queued value member]

theorem Sound.delete {before : State Thread Node} {thread : Thread} {node : Node}
    (sound : Sound before) (place : before.places thread = .serving node) :
    Sound { before.at thread .idle with
      live := Function.update before.live node false } := by
  obtain ⟨ring, queue, owned⟩ := sound
  have mine : (before.places thread).node = some node := by rw [place]; rfl
  have absent := (owned.has thread node mine).2.2
  have others : ∀ other value, ((before.at thread .idle).places other).node = some value →
      (before.places other).node = some value ∧ value ≠ node := by
    intro other value has
    rcases update_cases Place.node has with ⟨_, held⟩ | ⟨apart, held⟩
    · cases held
    · refine ⟨held, ?_⟩
      rintro rfl
      exact apart (owned.once other thread value held mine)
  refine ⟨ring, ⟨queue.linked, queue.count, queue.order, queue.whole⟩, ?_, ?_, ?_⟩
  · intro other value has
    obtain ⟨held, distinct⟩ := others other value has
    obtain ⟨lives, away, outside⟩ := owned.has other value held
    exact ⟨by simp [Function.update_of_ne distinct, lives], away, outside⟩
  · intro first second value one two
    exact owned.once first second value (others first value one).1 (others second value two).1
  · intro value member
    have distinct : value ≠ node := fun same => absent (same ▸ member)
    simp [Function.update_of_ne distinct, owned.queued value member]

omit [DecidableEq Node] [DecidableEq Thread] in
/-- `entry` is not NULL where `get` follows it. -/
theorem unfollowed {state : State Thread Node} (sound : Sound state)
    (nonempty : state.links.next state.head ≠ state.head) :
    state.links.prev state.head ≠ state.head := by
  obtain ⟨ring, queue, _⟩ := sound
  rcases List.eq_nil_or_concat ring with empty | ⟨front, last, same⟩
  · exact absurd (queue.linked.empty_iff.mpr empty) nonempty
  · rw [List.concat_eq_append] at same
    subst same
    rw [queue.linked.last]
    rintro rfl
    exact (List.nodup_cons.mp queue.linked.nodup).1 (by simp)

theorem Moved.sound {before after : State Thread Node} (moved : Moved before after)
    (sound : Sound before) : Sound after := by
  have free (thread : Thread) (place : Place Node) (absent : place.node = none) :
      Fewer before (before.at thread place) := by
    apply at_fewer
    intro node has
    rw [absent] at has
    cases has
  cases moved with
  | callPut thread node place unused apart => exact sound.callPut unused apart
  | put thread node place alive => exact sound.put place alive
  | take thread place alive nonempty node => exact sound.take place alive nonempty
  | delete thread node place => exact sound.delete place
  | callGet thread place | callFlush thread place | leave thread place
  | sleep thread place | spurious thread place | unheard thread place
  | unfollowed thread place =>
      exact sound.same rfl rfl rfl rfl List.prefix_rfl (fun alive => ⟨alive, rfl⟩) rfl
        (free thread _ rfl)
  | clear thread place =>
      exact sound.same rfl rfl rfl rfl List.prefix_rfl (fun alive => by cases alive) rfl
        (free thread _ rfl)
  | drop thread node place dead =>
      have off : before.alive ≠ true := by simp [dead]
      exact sound.same rfl rfl rfl rfl (List.prefix_append _ _) (fun alive => absurd alive off)
        rfl (free thread _ rfl)
  | broadcast thread place =>
      exact sound.same rfl rfl rfl rfl List.prefix_rfl (fun alive => ⟨alive, rfl⟩) rfl
        (broadcast_fewer before thread)
  | lock thread place goes =>
      refine sound.same rfl rfl rfl rfl List.prefix_rfl (fun alive => ⟨alive, rfl⟩) rfl ?_
      refine at_fewer before thread _ ?_
      intro node has
      rwa [← locked_node _ _ goes]
  | unlock thread place goes =>
      refine sound.same rfl rfl rfl rfl List.prefix_rfl (fun alive => ⟨alive, rfl⟩) rfl ?_
      refine at_fewer before thread _ ?_
      intro node has
      rwa [← unlocked_node _ _ goes]
  | signal thread sleeper place sleeps =>
      refine sound.same rfl rfl rfl rfl List.prefix_rfl (fun alive => ⟨alive, rfl⟩) rfl ?_
      intro other node has
      apply free sleeper .woken rfl
      exact at_fewer (before.at sleeper .woken) thread .idle (by intro node has; cases has)
        other node has

/-! NULL is returned by a `get` that has seen the list flushed, and by no other. -/

def NullWhenFlushed (state : State Thread Node) : Prop :=
  ∀ thread, state.places thread = .taken none → state.alive = false

omit [DecidableEq Node] in
theorem at_null {state : State Thread Node} (null : NullWhenFlushed state) (thread : Thread)
    (place : Place Node) (other : place ≠ .taken none) :
    NullWhenFlushed (state.at thread place) := by
  intro reader takes
  by_cases same : reader = thread
  · subst same
    simp only [State.at, Function.update_self] at takes
    exact absurd takes other
  · simp only [State.at, Function.update_of_ne same] at takes
    exact null reader takes

theorem Moved.null {before after : State Thread Node} (moved : Moved before after)
    (sound : Sound before) (null : NullWhenFlushed before) : NullWhenFlushed after := by
  cases moved with
  | callPut thread | callGet thread | callFlush thread | put thread | drop thread
  | sleep thread | take thread | unheard thread | spurious thread | delete thread =>
      apply at_null null thread
      intro same
      cases same
  | lock thread place goes =>
      apply at_null null thread
      rcases locked_cases _ _ goes with ⟨node, _, rfl⟩ | ⟨_, rfl⟩ | ⟨_, rfl⟩ <;> simp
  | unlock thread place goes =>
      apply at_null null thread
      rcases unlocked_cases _ _ goes with ⟨_, rfl⟩ | ⟨node, _, rfl⟩ | ⟨_, rfl⟩ <;> simp
  | unfollowed thread place alive nonempty nothing =>
      exact absurd nothing (WaitList.unfollowed sound nonempty)
  | leave thread place dead =>
      intro _ _
      exact dead
  | clear thread =>
      intro _ _
      rfl
  | signal thread sleeper =>
      have awake : NullWhenFlushed (before.at sleeper .woken) := by
        apply at_null null sleeper
        intro same
        cases same
      apply at_null awake thread
      intro same
      cases same
  | broadcast thread =>
      intro reader takes
      by_cases same : reader = thread
      · subst same
        simp [WaitList.broadcast] at takes
      · simp only [WaitList.broadcast, Function.update_of_ne same] at takes
        by_cases sleeps : before.places reader = .asleep
        · simp [sleeps] at takes
        · simp only [sleeps, ↓reduceIte] at takes
          exact null reader takes

/-- What `get` has returned, what is in the list and what has been put. The links
start with the node put last. -/
structure ExactlyOnce (state : State Thread Node) : Prop where
  returned : state.got <+: state.put
  waiting : state.alive = true → ∃ ring, IsRing state.links state.head ring ∧
    ring.reverse = state.put.drop state.got.length ∧
    state.num = (state.put.drop state.got.length).length
  null : ∀ thread, state.places thread = .taken none → state.alive = false

section Runs
variable [Fintype Thread]

theorem sound_reached {state : State Thread Node} (reached : Reachable step Constructed state) :
    Sound state := by
  apply ReachableWhile.invariant Sound _ _ reached
  · rintro _ ⟨head, links, rfl⟩
    exact initial_sound head links
  · intro before action after _ _ sound moved
    exact (step_moved before after action moved).sound sound

theorem null_reached {state : State Thread Node} (reached : Reachable step Constructed state) :
    NullWhenFlushed state := by
  apply ReachableWhile.invariant NullWhenFlushed _ _ reached
  · rintro _ ⟨head, links, rfl⟩ thread takes
    cases takes
  · intro before action after earlier _ null moved
    exact (step_moved before after action moved).null (sound_reached earlier) null

/-- In every interleaving each node put is returned at most once, in the order of the
puts, and what has not been returned waits in the list. -/
theorem exactly_once (state : State Thread Node) (reached : Reachable step Constructed state) :
    ExactlyOnce state := by
  obtain ⟨ring, queue, _⟩ := sound_reached reached
  constructor
  · exact (List.prefix_append _ _).trans queue.order
  · intro alive
    have rest : ring.reverse = state.put.drop state.got.length := by
      rw [← queue.whole alive, List.drop_left]
    refine ⟨ring, queue.linked, rest, ?_⟩
    rw [queue.count, ← rest, List.length_reverse]
  · exact null_reached reached

/-- Two threads put a node each, and the first of them takes the one put first. -/
theorem exactly_once_two : ∃ state : State (Fin 2) (Fin 3),
    (state.put = [2, 1] ∧ state.got = [2] ∧ state.alive = true) ∧ ExactlyOnce state := by
  obtain ⟨state, reached, shown⟩ := exec_reaches
    (.start ⟨0, ⟨id, id⟩, rfl⟩ : Reachable step Constructed _)
    [.callPut 0 1, .callPut 1 2, .lock 1, .body 1, .unlock 1, .lock 0, .body 0, .unlock 0,
      .signal 0 none, .callGet 0, .lock 0, .body 0]
    (fun state : State (Fin 2) (Fin 3) =>
      decide (state.put = [2, 1] ∧ state.got = [2] ∧ state.alive = true))
    (by decide +kernel)
  exact ⟨state, of_decide_eq_true shown, exactly_once state reached⟩

end Runs

end AsrServer.WaitList
