import AsrServer.Transition
import AsrServer.Machine

/-!
Sections of code under a lock. There is one lock for each key, and behind it a
shared value; a thread comes with a call, stands at `enter call` once it has the
lock, and `micro` is one of its steps from there, which may change the value under
its own lock and nothing else. Threads take turns step by step. What is
behind a lock is then always the work of whole sections, one after the other,
with at most one that is still under way.
-/

namespace AsrServer.CriticalSection

variable {Thread Key Call Task Shared : Type*}

/-- Where a thread is; inside, what it came with and how far it has got. -/
inductive Place (Key Call Task : Type*) where
  | outside
  | waiting (key : Key) (call : Call)
  | inside (key : Key) (call : Call) (now : Task)
  deriving DecidableEq

structure State (Thread Key Call Task Shared : Type*) where
  places : Thread → Place Key Call Task
  owner : Key → Option Thread
  shared : Key → Shared
  finished : Key → List (Call × Task)

inductive Action (Thread Key Call : Type*) where
  | call (thread : Thread) (key : Key) (call : Call)
  | lock (thread : Thread)
  | work (thread : Thread)
  | unlock (thread : Thread)

section Step
variable [DecidableEq Thread] [DecidableEq Key] (enter : Call → Task)
  (micro : Task → Shared → Option (Task × Shared))

def State.at (state : State Thread Key Call Task Shared) (thread : Thread)
    (place : Place Key Call Task) : State Thread Key Call Task Shared :=
  { state with places := Function.update state.places thread place }

/-- The section is over where `micro` has no step left. -/
def step (state : State Thread Key Call Task Shared) :
    Action Thread Key Call → Option (State Thread Key Call Task Shared)
  | .call thread key call =>
      match state.places thread with
      | .outside => some (state.at thread (.waiting key call))
      | _ => none
  | .lock thread =>
      match state.places thread with
      | .waiting key call =>
          match state.owner key with
          | none =>
              some { state.at thread (.inside key call (enter call)) with
                owner := Function.update state.owner key (some thread) }
          | some _ => none
      | _ => none
  | .work thread =>
      match state.places thread with
      | .inside key call now =>
          (micro now (state.shared key)).map fun after =>
            { state.at thread (.inside key call after.1) with
              shared := Function.update state.shared key after.2 }
      | _ => none
  | .unlock thread =>
      match state.places thread with
      | .inside key call now =>
          match micro now (state.shared key) with
          | none =>
              some { state.at thread .outside with
                owner := Function.update state.owner key none
                finished := Function.update state.finished key
                  (state.finished key ++ [(call, now)]) }
          | some _ => none
      | _ => none

structure Initial (start : Key → Shared) (state : State Thread Key Call Task Shared) : Prop where
  outside : ∀ thread, state.places thread = .outside
  free : ∀ key, state.owner key = none
  shared : state.shared = start
  finished : ∀ key, state.finished key = []

/-- One section by itself, from what it finds behind the lock to what it leaves there. -/
abbrev Ran (call : Call) (before : Shared) (now : Task) (after : Shared) : Prop :=
  Machine.Run (fun place : Task × Shared => micro place.1 place.2) (enter call, before) (now, after)

inductive Serial (start : Shared) : List (Call × Task) → Shared → Prop where
  | nil : Serial start [] start
  | append {earlier middle call last after} : Serial start earlier middle →
      Ran enter micro call middle last after → micro last after = none →
      Serial start (earlier ++ [(call, last)]) after

/-- Behind each lock are whole sections and the part of its owner's that is done. -/
structure Guarded (start : Key → Shared) (state : State Thread Key Call Task Shared) : Prop where
  owner : ∀ key thread, state.owner key = some thread ↔
    ∃ call now, state.places thread = .inside key call now
  free : ∀ key, state.owner key = none →
    Serial enter micro (start key) (state.finished key) (state.shared key)
  held : ∀ thread key call now, state.places thread = .inside key call now →
    ∃ middle, Serial enter micro (start key) (state.finished key) middle ∧
      Ran enter micro call middle now (state.shared key)

end Step

section Guarded
variable [DecidableEq Thread] [DecidableEq Key] {enter : Call → Task}
  {micro : Task → Shared → Option (Task × Shared)}
  {start : Key → Shared} {state : State Thread Key Call Task Shared}

omit [DecidableEq Key] in
theorem Guarded.stays (guarded : Guarded enter micro start state) (thread : Thread)
    (place : Place Key Call Task)
    (before : ∀ key call now, state.places thread ≠ .inside key call now)
    (after : ∀ key call now, place ≠ .inside key call now) :
    Guarded enter micro start (state.at thread place) := by
  have same (other : Thread) (key : Key) (call : Call) (now : Task) :
      (state.at thread place).places other = .inside key call now ↔
        state.places other = .inside key call now := by
    by_cases here : other = thread
    · subst here
      simp [State.at, before, after]
    · simp [State.at, Function.update_of_ne here]
  refine ⟨?_, guarded.free, ?_⟩
  · intro key other
    simp only [same]
    exact guarded.owner key other
  · intro other key call now inside
    exact guarded.held other key call now ((same other key call now).mp inside)

theorem Guarded.locks (guarded : Guarded enter micro start state) (thread : Thread) (key : Key)
    (call : Call) (waits : state.places thread = .waiting key call)
    (free : state.owner key = none) :
    Guarded enter micro start { state.at thread (.inside key call (enter call)) with
      owner := Function.update state.owner key (some thread) } := by
  -- The key gets an owner; the other keys and threads keep theirs.
  refine ⟨?_, ?_, ?_⟩
  · intro other holder
    by_cases here : holder = thread
    · subst here
      by_cases mine : other = key
      · subst mine
        simp [State.at]
      · have outside : state.owner other ≠ some holder := by
          intro held
          obtain ⟨_, _, inside⟩ := (guarded.owner other holder).mp held
          rw [waits] at inside
          cases inside
        simp [State.at, Function.update_of_ne mine, outside, Ne.symm mine]
    · by_cases mine : other = key
      · subst mine
        have outside : ¬ ∃ call now, state.places holder = .inside other call now := by
          rw [← guarded.owner, free]
          nofun
        simp [State.at, Function.update_of_ne here, Ne.symm here] at outside ⊢
        exact outside
      · simpa [State.at, Function.update_of_ne here, Function.update_of_ne mine] using
          guarded.owner other holder
  · intro other unowned
    by_cases mine : other = key
    · subst mine
      simp at unowned
    · simp only [Function.update_of_ne mine] at unowned
      exact guarded.free other unowned
  · intro holder other first now inside
    by_cases here : holder = thread
    · subst here
      simp only [State.at, Function.update_self, Place.inside.injEq] at inside
      obtain ⟨rfl, rfl, rfl⟩ := inside
      exact ⟨state.shared key, guarded.free key free, .done _⟩
    · simp only [State.at, Function.update_of_ne here] at inside
      exact guarded.held holder other first now inside

theorem Guarded.works (guarded : Guarded enter micro start state) (thread : Thread) (key : Key)
    (call : Call) (now next : Task) (value : Shared)
    (inside : state.places thread = .inside key call now)
    (ran : micro now (state.shared key) = some (next, value)) :
    Guarded enter micro start { state.at thread (.inside key call next) with
      shared := Function.update state.shared key value } := by
  have owns : state.owner key = some thread := (guarded.owner key thread).mpr ⟨call, now, inside⟩
  refine ⟨?_, ?_, ?_⟩
  · intro other holder
    by_cases here : holder = thread
    · subst here
      have same := guarded.owner other holder
      simp only [inside, Place.inside.injEq] at same
      simp only [State.at, Function.update_self, Place.inside.injEq]
      rw [same]
      exact ⟨fun ⟨_, _, found, _⟩ => ⟨call, next, found, rfl, rfl⟩,
        fun ⟨_, _, found, _⟩ => ⟨call, now, found, rfl, rfl⟩⟩
    · simpa [State.at, Function.update_of_ne here] using guarded.owner other holder
  · intro other unowned
    have apart : other ≠ key := by
      rintro rfl
      exact absurd (owns.symm.trans unowned) nofun
    simpa [State.at, Function.update_of_ne apart] using guarded.free other unowned
  · intro holder other first current there
    by_cases here : holder = thread
    · subst here
      simp only [State.at, Function.update_self, Place.inside.injEq] at there
      obtain ⟨rfl, rfl, rfl⟩ := there
      obtain ⟨middle, serial, done⟩ := guarded.held holder key call now inside
      refine ⟨middle, serial, ?_⟩
      simp only [Function.update_self]
      exact Machine.RunWhile.trans done (.next trivial ran (.done _))
    · simp only [State.at, Function.update_of_ne here] at there
      -- Its section is under another lock, so the value there is untouched.
      have apart : other ≠ key := by
        intro same
        subst same
        have holds := (guarded.owner other holder).mpr ⟨first, current, there⟩
        rw [owns] at holds
        exact here (Option.some.inj holds).symm
      simpa [State.at, Function.update_of_ne apart] using
        guarded.held holder other first current there

theorem Guarded.unlocks (guarded : Guarded enter micro start state) (thread : Thread) (key : Key)
    (call : Call) (now : Task) (inside : state.places thread = .inside key call now)
    (ended : micro now (state.shared key) = none) :
    Guarded enter micro start { state.at thread .outside with
      owner := Function.update state.owner key none
      finished := Function.update state.finished key (state.finished key ++ [(call, now)]) } := by
  have owns : state.owner key = some thread := (guarded.owner key thread).mpr ⟨call, now, inside⟩
  -- The lock has one owner, so no other thread is inside this section.
  have apart (holder : Thread) (here : holder ≠ thread) (other : Key) (first : Call)
      (current : Task) (there : state.places holder = .inside other first current) :
    other ≠ key := by
    intro same
    subst same
    have holds := (guarded.owner other holder).mpr ⟨first, current, there⟩
    rw [owns] at holds
    exact here (Option.some.inj holds).symm
  refine ⟨?_, ?_, ?_⟩
  · intro other holder
    by_cases here : holder = thread
    · subst here
      by_cases mine : other = key
      · subst mine
        simp [State.at]
      · have elsewhere : state.owner other ≠ some holder := by
          intro held
          obtain ⟨_, _, there⟩ := (guarded.owner other holder).mp held
          rw [inside, Place.inside.injEq] at there
          exact mine there.1.symm
        simp [State.at, Function.update_of_ne mine, elsewhere]
    · by_cases mine : other = key
      · subst mine
        simp only [State.at, Function.update_self, Function.update_of_ne here, reduceCtorEq,
          false_iff]
        rintro ⟨first, current, there⟩
        exact apart holder here other first current there rfl
      · simpa [State.at, Function.update_of_ne here, Function.update_of_ne mine] using
          guarded.owner other holder
  · intro other unowned
    by_cases mine : other = key
    · subst mine
      -- The section that ends is one more whole section.
      obtain ⟨middle, serial, done⟩ := guarded.held thread other call now inside
      simp only [State.at, Function.update_self]
      exact .append serial done ended
    · simp only [Function.update_of_ne mine] at unowned
      simpa [State.at, Function.update_of_ne mine] using guarded.free other unowned
  · intro holder other first current there
    by_cases here : holder = thread
    · subst here
      simp [State.at] at there
    · simp only [State.at, Function.update_of_ne here] at there
      have elsewhere := apart holder here other first current there
      simpa [State.at, Function.update_of_ne elsewhere] using
        guarded.held holder other first current there

theorem step_guarded (guarded : Guarded enter micro start state) (action : Action Thread Key Call)
    (after : State Thread Key Call Task Shared) (ran : step enter micro state action = some after) :
    Guarded enter micro start after := by
  cases action with
  | call thread key call =>
      simp only [step] at ran
      split at ran
      · rename_i outside
        cases ran
        exact guarded.stays thread _ (fun _ _ _ => by rw [outside]; nofun) nofun
      · cases ran
  | lock thread =>
      simp only [step] at ran
      split at ran
      · rename_i key call waits
        split at ran
        · rename_i free
          cases ran
          exact guarded.locks thread key call waits free
        · cases ran
      · cases ran
  | work thread =>
      simp only [step] at ran
      split at ran
      · rename_i key call now inside
        obtain ⟨⟨next, value⟩, moved, same⟩ := Option.map_eq_some_iff.mp ran
        cases same
        exact guarded.works thread key call now next value inside moved
      · cases ran
  | unlock thread =>
      simp only [step] at ran
      split at ran
      · rename_i key call now inside
        split at ran
        · rename_i ended
          cases ran
          exact guarded.unlocks thread key call now inside ended
        · cases ran
      · cases ran

omit [DecidableEq Thread] [DecidableEq Key] in
/-- Where a whole section is one operation on the value, they are that operation in turn. -/
theorem Serial.fold {first last : Shared} {finished : List (Call × Task)}
    (whole : Call → Shared → Shared)
    (agrees : ∀ call before now after, Ran enter micro call before now after →
      micro now after = none → after = whole call before)
    (serial : Serial enter micro first finished last) :
    last = (finished.map Prod.fst).foldl (fun value call => whole call value) first := by
  induction serial with
  | nil => rfl
  | append _ ran ended ih =>
      rw [agrees _ _ _ _ ran ended, ih]
      simp

omit [DecidableEq Thread] [DecidableEq Key] in
theorem Serial.ended {first last : Shared} {finished : List (Call × Task)}
    (serial : Serial enter micro first finished last) (done : Call × Task)
    (member : done ∈ finished) :
    ∃ before after, Ran enter micro done.1 before done.2 after ∧ micro done.2 after = none := by
  induction serial with
  | nil => cases member
  | @append _ middle _ _ after _ ran ended ih =>
      rcases List.mem_append.mp member with earlier | new
      · exact ih earlier
      · cases List.mem_singleton.mp new
        exact ⟨middle, after, ran, ended⟩

/-- In every interleaving the value behind a lock is that of the sections taken whole. -/
theorem reachable_guarded (start : Key → Shared)
    (reached : Transition.Reachable (step enter micro) (Initial start) state) :
    Guarded enter micro start state := by
  refine reached.invariant (Guarded enter micro start) ?_ ?_
  · intro state initial
    refine ⟨?_, ?_, ?_⟩
    · intro key thread
      simp [initial.free, initial.outside]
    · intro key _
      rw [initial.shared, initial.finished]
      exact .nil
    · intro thread key call now inside
      rw [initial.outside] at inside
      cases inside
  · intro before action after _ _ guarded ran
    exact step_guarded guarded action after ran

end Guarded

end AsrServer.CriticalSection
