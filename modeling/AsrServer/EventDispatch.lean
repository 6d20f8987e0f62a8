import AsrServer.EventLoop

/-!
What is done with the events of `Http_Server::svc`. The counter says which events have been read;
the deeds of each thread say what it has still to do with the one in its hand. Together they give
that every event is dispatched once, by the thread that read it and as its descriptor asks.
-/

namespace AsrServer.EventLoop

open Server (Fd Waited Config)

/-! What the threads owe. From the read of an event to the deed that its descriptor asks for a
thread holds the mutex, so one event at most is still to be handed on. -/

section Duties
variable {R : Type} [DecidableEq R]

def Owes (config : Config) : Place → Duty → Prop
  | .handing fd, owed => ∃ index, owed = .event index fd
  | .accepting fd, owed =>
      owed = .accepting fd ∨ (fd = config.listen ∧ ∃ index, owed = .event index fd)
  | .unlocking .again, owed =>
      (∃ index, owed = .event index config.pipe_read) ∨ ∃ fd, owed = .accepting fd
  | .unlocking (.recv_request fd), owed => owed = .removed fd
  | .receiving fd, owed => owed = .request fd
  | _, owed => owed = .none

def owing (thread : R) (log : List (Entry R)) : List (R × Int) :=
  match duty (own thread (since log)) with
  | .event index _ => [(thread, index)]
  | _ => []

def State.pending (state : State R) : List (R × Int) :=
  match state.epoll_mutex with
  | none => []
  | some thread => owing thread state.log

/-- The next deed of a thread is a matter of its own steps. -/
def Does (config : Config) (state : State R) (thread : R) : Prop :=
  ∃ actions ⊆ [Action.go thread, .accept thread false], ∃ after deed,
    Transition.exec (step config) state actions = some after ∧
      own thread after.log = deed :: own thread state.log

structure Duties (config : Config) (state : State R) : Prop where
  owes : ∀ thread, Owes config (state.places thread) (duty (own thread state.log))
  current : ∀ thread index fd, duty (own thread state.log) = .event index fd →
    duty (own thread (since state.log)) = .event index fd
  account : taken state.log = state.pending ++ handed config state.log
  obeyed : Along (Obeys config) state.log

section Duty

theorem duty_event {deeds : List Deed} {index : Int} {fd : Fd}
    (event : duty deeds = .event index fd) : ∃ rest, deeds = .read index fd :: rest := by
  unfold duty at event
  split at event <;> cases event
  exact ⟨_, rfl⟩

theorem duty_other {deed : Deed} (deeds : List Deed) (other : ∀ index fd, deed ≠ .read index fd)
    (index : Int) (fd : Fd) : duty (deed :: deeds) ≠ .event index fd := by
  intro event
  obtain ⟨rest, same⟩ := duty_event event
  exact other index fd (List.cons.inj same).1

theorem duty_unlock {deeds : List Deed} (other : ∀ fd, duty deeds ≠ .removed fd) :
    duty (.unlock :: deeds) = .none := by
  cases deeds with
  | nil => rfl
  | cons deed rest =>
      cases deed with
      | del_input_fd fd => exact absurd rfl (other fd)
      | _ => rfl

theorem duty_removed {deeds : List Deed} {fd : Fd} (removed : duty deeds = .removed fd) :
    duty (.unlock :: deeds) = .request fd := by
  unfold duty at removed
  split at removed <;> cases removed
  rfl

theorem Owes.event {config : Config} {place : Place} {index : Int} {fd : Fd}
    (owes : Owes config place (.event index fd)) : place.inside = 1 ∧ place.holds = true := by
  cases place with
  | handing | accepting => exact ⟨rfl, rfl⟩
  | unlocking next => exact ⟨rfl, rfl⟩
  | _ => cases owes

end Duty

section Accounts
variable {log : List (Entry R)} {thread : R} {deed : Deed}

omit [DecidableEq R] in
theorem since_did : since (.did thread deed :: log) = .did thread deed :: since log := rfl

theorem own_self : own thread (.did thread deed :: log) = deed :: own thread log :=
  if_pos rfl

theorem own_other {other : R} (differs : thread ≠ other) :
    own other (.did thread deed :: log) = own other log :=
  if_neg differs

theorem own_since (thread : R) (log : List (Entry R)) :
    own thread (since log) <+: own thread log := by
  induction log with
  | nil => exact List.prefix_rfl
  | cons entry older ih =>
      cases entry with
      | waited result =>
          cases result with
          | events batch => exact List.nil_prefix
          | interrupted => exact ih
          | failed => exact ih
      | did other deed =>
          by_cases same : other = thread
          · rw [since_did, own, own, if_pos same, if_pos same]
            exact List.cons_prefix_cons.mpr ⟨rfl, ih⟩
          · rw [since_did, own, own, if_neg same, if_neg same]
            exact ih

theorem duty_since {index : Int} {fd : Fd}
    (event : duty (own thread (since log)) = .event index fd) :
    duty (own thread log) = .event index fd := by
  obtain ⟨rest, same⟩ := duty_event event
  obtain ⟨more, longer⟩ := own_since thread log
  rw [← longer, same]
  rfl

theorem owing_nil (other : ∀ index fd, duty (own thread log) ≠ .event index fd) :
    owing thread log = [] := by
  unfold owing
  split
  · rename_i index fd event
    exact absurd (duty_since event) (other index fd)
  · rfl

theorem owing_other {other : R} (differs : thread ≠ other) :
    owing other (.did thread deed :: log) = owing other log := by
  rw [owing, since_did, own_other differs]
  rfl

theorem owing_did (other : ∀ index fd, deed ≠ .read index fd) :
    owing thread (.did thread deed :: log) = [] := by
  apply owing_nil
  rw [own_self]
  exact duty_other _ other

theorem taken_did : taken (.did thread deed :: log) =
    owing thread (.did thread deed :: log) ++ taken log := by
  cases deed with
  | read index fd =>
      rw [owing, since_did, own_self]
      rfl
  | _ =>
      rw [owing_did (by simp)]
      rfl

theorem handed_did {config : Config} (fulfils : Fulfils config deed (duty (own thread log))) :
    handed config (.did thread deed :: log) = owing thread log ++ handed config log := by
  rw [handed, owing]
  cases event : duty (own thread (since log)) with
  | event index fd =>
      rw [duty_since event] at fulfils
      exact if_pos fulfils
  | _ => rfl

end Accounts

section Kept
variable {config : Config} {state after : State R}

theorem pending_held {thread : R} (held : state.epoll_mutex = some thread) :
    state.pending = owing thread state.log := by
  rw [State.pending, held]

theorem Duties.initial (initial : Initial state) : Duties config state := by
  refine ⟨?_, ?_, ?_, ?_⟩
  · intro thread
    rw [initial.places thread, initial.log]
    rfl
  · intro thread index fd event
    rw [initial.log] at event
    cases event
  · rw [State.pending, initial.epoll_mutex, initial.log]
    rfl
  · rw [initial.log]
    trivial

theorem Duties.moved (duties : Duties config state) (thread : R) (place : Place)
    (log : after.log = state.log) (places : after.places = (state.at thread place).places)
    (owes : Owes config place (duty (own thread state.log)))
    (pending : after.pending = state.pending) : Duties config after := by
  refine ⟨?_, ?_, ?_, ?_⟩
  · intro other
    rw [log, places, places_at]
    split
    · rename_i self
      rwa [self]
    · exact duties.owes other
  · rw [log]
    exact duties.current
  · rw [log, pending]
    exact duties.account
  · rw [log]
    exact duties.obeyed

theorem Duties.did (duties : Duties config state) (thread : R) (deed : Deed) (place : Place)
    (log : after.log = .did thread deed :: state.log)
    (places : after.places = (state.at thread place).places)
    (fulfils : Fulfils config deed (duty (own thread state.log)))
    (owes : Owes config place (duty (deed :: own thread state.log)))
    (account : taken state.log = state.pending ++ handed config state.log →
      taken after.log = after.pending ++ handed config after.log) : Duties config after := by
  refine ⟨?_, ?_, account duties.account, ?_⟩
  · intro other
    rw [log, places, places_at]
    split
    · rename_i self
      rwa [self, own_self]
    · rename_i differs
      rw [own_other (Ne.symm differs)]
      exact duties.owes other
  · intro other index fd event
    rw [log] at event ⊢
    rw [since_did]
    by_cases self : thread = other
    · subst self
      rw [own_self] at event ⊢
      obtain ⟨rest, same⟩ := duty_event event
      rw [(List.cons.inj same).1]
      rfl
    · rw [own_other self] at event ⊢
      exact duties.current other index fd event
  · rw [log]
    exact ⟨fulfils, duties.obeyed⟩

theorem account_holder (thread : R) (deed : Deed) (log : after.log = .did thread deed :: state.log)
    (held : state.epoll_mutex = some thread)
    (fulfils : Fulfils config deed (duty (own thread state.log)))
    (mutex : after.epoll_mutex = some thread ∨ after.epoll_mutex = none ∧ deed = .unlock)
    (account : taken state.log = state.pending ++ handed config state.log) :
    taken after.log = after.pending ++ handed config after.log := by
  have pending : after.pending = owing thread after.log := by
    rcases mutex with kept | ⟨freed, rfl⟩
    · exact pending_held kept
    · rw [State.pending, freed, log, owing_did (by simp)]
  rw [pending, log, taken_did, handed_did fulfils, account, pending_held held]

theorem account_other (thread : R) (deed : Deed) (log : after.log = .did thread deed :: state.log)
    (free : state.epoll_mutex ≠ some thread) (mutex : after.epoll_mutex = state.epoll_mutex)
    (fulfils : Fulfils config deed (duty (own thread state.log)))
    (event : ∀ index fd, duty (own thread state.log) ≠ .event index fd)
    (read : ∀ index fd, deed ≠ .read index fd)
    (account : taken state.log = state.pending ++ handed config state.log) :
    taken after.log = after.pending ++ handed config after.log := by
  have pending : after.pending = state.pending := by
    unfold State.pending
    rw [mutex, log]
    cases owner : state.epoll_mutex with
    | none => rfl
    | some other => exact owing_other fun same => free (same ▸ owner)
  rw [pending, log, taken_did, handed_did fulfils, account, owing_nil event,
    owing_did read]
  rfl

theorem Inv.holder_of_event (inv : Inv state) (duties : Duties config state) {thread : R}
    {index : Int} {fd : Fd} (event : duty (own thread state.log) = .event index fd) :
    state.epoll_mutex = some thread := by
  have owes := duties.owes thread
  rw [event] at owes
  exact (inv.mutex thread).mp owes.event.2

theorem Duties.stayed (duties : Duties config state) (thread : R) (place : Place)
    (log : after.log = state.log) (mutex : after.epoll_mutex = state.epoll_mutex)
    (places : after.places = (state.at thread place).places)
    (owes : Owes config place (duty (own thread state.log))) : Duties config after := by
  apply duties.moved thread place log places owes
  rw [State.pending, State.pending, mutex, log]

theorem Duties.locked (duties : Duties config state) (thread : R)
    (place : state.places thread = .entering) (free : state.epoll_mutex = none) :
    Duties config { state.at thread .locked with epoll_mutex := some thread } := by
  have owes := duties.owes thread
  rw [place] at owes
  have idle : duty (own thread state.log) = .none := owes
  have nothing : owing thread state.log = [] := owing_nil (by simp [idle])
  refine duties.moved thread .locked rfl rfl idle ?_
  rw [State.pending, State.pending, free]
  exact nothing

theorem Inv.duties_unlocked (inv : Inv state) (duties : Duties config state) (thread : R)
    (place : Place) (held : (state.places thread).holds = true)
    (fulfils : Fulfils config .unlock (duty (own thread state.log)))
    (owes : Owes config place (duty (.unlock :: own thread state.log))) :
    Duties config ((state.at thread place).unlock thread) := by
  have owner := (inv.mutex thread).mp held
  exact duties.did thread .unlock place rfl rfl fulfils owes
    (account_holder thread .unlock rfl owner fulfils (.inr ⟨rfl, rfl⟩))

theorem Inv.duties_noted (inv : Inv state) (duties : Duties config state) (thread : R)
    (deed : Deed) (place : Place) (held : (state.places thread).holds = true)
    (fulfils : Fulfils config deed (duty (own thread state.log)))
    (owes : Owes config place (duty (deed :: own thread state.log))) :
    Duties config ((state.note thread deed).at thread place) := by
  have owner := (inv.mutex thread).mp held
  exact duties.did thread deed place rfl rfl fulfils owes
    (account_holder thread deed rfl owner fulfils (.inl owner))

theorem Inv.duties_unlocking (inv : Inv state) (duties : Duties config state) (thread : R)
    (next : After) (place : state.places thread = .unlocking next) :
    Duties config ((state.at thread (resume next)).unlock thread) := by
  have held : (state.places thread).holds = true := by rw [place]; rfl
  have owes := duties.owes thread
  rw [place] at owes
  cases next with
  | leave =>
      have idle : duty (own thread state.log) = .none := owes
      refine inv.duties_unlocked duties thread .exited held ?_ (duty_unlock (by simp [idle]))
      rw [idle]
      exact .inr rfl
  | again =>
      -- The pipe asks for this, or the loop around `accept` is over.
      rcases owes with ⟨index, event⟩ | ⟨fd, accepting⟩
      · refine inv.duties_unlocked duties thread .testing held ?_ (duty_unlock (by simp [event]))
        rw [event]
        exact (if_neg config.distinct.symm).trans (if_pos rfl) |>.symm
      · refine inv.duties_unlocked duties thread .testing held ?_
          (duty_unlock (by simp [accepting]))
        rw [accepting]
        exact .inr rfl
  | recv_request fd =>
      have removed : duty (own thread state.log) = .removed fd := owes
      refine inv.duties_unlocked duties thread (.receiving fd) held ?_ (duty_removed removed)
      rw [removed]
      rfl

theorem Inv.duties_go (inv : Inv state) (duties : Duties config state) (thread : R)
    (moved : EventLoop.go config state thread = some after) : Duties config after := by
  have owes := duties.owes thread
  -- Only the read, the deed it asks for and the unlock are written; the rest leaves the duty alone.
  cases go_went config state after thread moved with
  | tested place =>
      rw [place] at owes
      refine duties.stayed thread _ rfl rfl rfl ?_
      split
      · exact owes
      · exact owes
  | entered place free => exact duties.locked thread place free
  | again place =>
      rw [place] at owes
      refine duties.stayed thread _ rfl rfl rfl ?_
      split
      · exact owes
      · exact owes
  | counted place =>
      rw [place] at owes
      refine duties.stayed thread _ rfl rfl rfl ?_
      split
      · exact owes
      · exact owes
  | failed place =>
      have idle : duty (own thread state.log) = .none := by rwa [place] at owes
      have ended : duty (.unlock :: own thread state.log) = .none := duty_unlock (by simp [idle])
      refine inv.duties_unlocked duties thread _ (by rw [place]; rfl) ?_ ?_
      · rw [idle]
        exact .inr rfl
      · split
        · exact ended
        · exact ended
  | @took fd place event =>
      have idle : duty (own thread state.log) = .none := by rwa [place] at owes
      refine inv.duties_noted duties thread _ _ (by rw [place]; rfl) ?_ ⟨_, rfl⟩
      rw [idle]
      exact .inl ⟨_, _, rfl⟩
  | listened place =>
      rw [place] at owes
      exact duties.stayed thread _ rfl rfl rfl (.inr ⟨rfl, owes⟩)
  | woken place =>
      rw [place] at owes
      exact duties.stayed thread _ rfl rfl rfl (.inl owes)
  | @removed fd place listen pipe =>
      have held : (state.places thread).holds = true := by rw [place]; rfl
      rw [place] at owes
      obtain ⟨index, event⟩ := owes
      refine inv.duties_noted duties thread _ _ held ?_ rfl
      rw [event]
      exact (if_neg listen).trans (if_neg pipe) |>.symm
  | @unlocked next place => exact inv.duties_unlocking duties thread next place
  | @received fd place =>
      -- Behind the section: who receives does not hold the mutex.
      have free : state.epoll_mutex ≠ some thread := by
        intro owner
        have held := (inv.mutex thread).mpr owner
        rw [place] at held
        cases held
      have request : duty (own thread state.log) = .request fd := by rwa [place] at owes
      have fulfils : Fulfils config (.recv_request fd) (duty (own thread state.log)) := by
        rw [request]
        rfl
      exact duties.did thread (.recv_request fd) .testing rfl rfl fulfils rfl
        (account_other thread _ rfl free rfl fulfils (by simp [request]) (by simp))

theorem Inv.duties_waited (inv : Inv state) (duties : Duties config state) (thread : R)
    (result : Waited) (place : state.places thread = .waiting) :
    Duties config ((epoll_wait state thread result).at thread .counting) := by
  have owner : state.epoll_mutex = some thread :=
    (inv.mutex thread).mp (by rw [place]; rfl)
  have idle : duty (own thread state.log) = .none := by
    have owes := duties.owes thread
    rwa [place] at owes
  have nothing : owing thread state.log = [] := owing_nil (by simp [idle])
  -- The holder has nothing in hand here, so every read has been handed on.
  have all : handed config state.log = taken state.log := by
    rw [duties.account, pending_held owner, nothing, List.nil_append]
  have owes (other : R) : Owes config
      (((epoll_wait state thread result).at thread .counting).places other)
      (duty (own other state.log)) := by
    rw [places_at]
    split
    · rename_i self
      rw [self, idle]
      rfl
    · have places : (epoll_wait state thread result).places = state.places := by
        cases result <;> rfl
      rw [places]
      exact duties.owes other
  cases result with
  | events batch =>
      refine ⟨owes, ?_, ?_, ⟨all, duties.obeyed⟩⟩
      · intro other index fd event
        have same := (inv.holder_of_event duties event).symm.trans owner
        rw [Option.some.injEq] at same
        subst same
        have event : duty (own other state.log) = .event index fd := event
        rw [idle] at event
        cases event
      · have held : ((epoll_wait state thread (.events batch)).at thread .counting).epoll_mutex =
            some thread := owner
        rw [pending_held held]
        rfl
  | interrupted =>
      have held : ((epoll_wait state thread .interrupted).at thread .counting).epoll_mutex =
          some thread := owner
      refine ⟨owes, duties.current, ?_, ⟨all, duties.obeyed⟩⟩
      rw [pending_held held]
      exact pending_held owner ▸ duties.account
  | failed =>
      have held : ((epoll_wait state thread .failed).at thread .counting).epoll_mutex =
          some thread := owner
      refine ⟨owes, duties.current, ?_, ⟨all, duties.obeyed⟩⟩
      rw [pending_held held]
      exact pending_held owner ▸ duties.account

theorem Inv.duties_step (inv : Inv state) (duties : Duties config state) (action : Action R)
    (moved : EventLoop.step config state action = some after) : Duties config after := by
  cases action with
  | stop =>
      cases moved
      exact ⟨duties.owes, duties.current, duties.account, duties.obeyed⟩
  | go thread => exact inv.duties_go duties thread moved
  | wait thread result =>
      simp only [EventLoop.step, wait] at moved
      split at moved
      · rename_i meets
        split at moved
        · cases moved
          exact inv.duties_waited duties thread result meets.1
        · cases moved
          have owes := duties.owes thread
          rw [meets.1] at owes
          exact duties.stayed thread _ rfl rfl rfl owes
      · cases moved
  | accept thread more =>
      simp only [EventLoop.step, accept] at moved
      split at moved
      · rename_i fd place
        cases moved
        have owes := duties.owes thread
        rw [place] at owes
        refine inv.duties_noted duties thread _ _ (by rw [place]; rfl) ?_ ?_
        · rcases owes with accepting | ⟨listen, index, event⟩
          · rw [accepting]
            exact .inl rfl
          · rw [event]
            exact (if_pos listen).symm
        · split
          · exact .inl rfl
          · exact .inr ⟨fd, rfl⟩
      · cases moved

theorem Does.now (action : Action R) (after : State R) (thread : R) (deed : Deed)
    (mine : action ∈ [Action.go thread, .accept thread false])
    (moved : EventLoop.step config state action = some after)
    (noted : own thread after.log = deed :: own thread state.log) : Does config state thread := by
  refine ⟨[action], List.cons_subset.mpr ⟨mine, List.nil_subset _⟩, after, deed, ?_, noted⟩
  rw [Transition.exec, moved]
  rfl

theorem Does.later (middle : State R) (thread : R)
    (moved : EventLoop.step config state (.go thread) = some middle)
    (same : own thread middle.log = own thread state.log) (does : Does config middle thread) :
    Does config state thread := by
  obtain ⟨actions, mine, after, deed, ran, noted⟩ := does
  refine ⟨.go thread :: actions, List.cons_subset.mpr ⟨List.mem_cons_self .., mine⟩, after, deed,
    ?_, noted.trans (by rw [same])⟩
  rw [Transition.exec, moved]
  exact ran

theorem Does.accepts (thread : R) (fd : Fd) (place : state.places thread = .accepting fd) :
    Does config state thread := by
  refine .now (.accept thread false)
    ((state.note thread (.accept fd)).at thread (.unlocking .again)) thread (.accept fd)
    (List.mem_cons_of_mem _ (List.mem_cons_self ..)) ?_ (if_pos rfl)
  rw [EventLoop.step, EventLoop.accept, place]
  rfl

theorem Does.unlocks (thread : R) (next : After)
    (place : state.places thread = .unlocking next) : Does config state thread := by
  refine .now (.go thread) ((state.at thread (resume next)).unlock thread) thread .unlock
    (List.mem_cons_self ..) ?_ (if_pos rfl)
  rw [EventLoop.step, EventLoop.go, place]

theorem Does.hands (thread : R) (fd : Fd) (place : state.places thread = .handing fd) :
    Does config state thread := by
  have goes : EventLoop.step config state (.go thread) = some (dispatch config state thread fd) :=
    by rw [EventLoop.step, EventLoop.go, place]
  by_cases listen : fd = config.listen
  · rw [listen, dispatch_listen] at goes
    exact .later _ thread goes rfl (.accepts thread _ (Function.update_self ..))
  · by_cases pipe : fd = config.pipe_read
    · rw [pipe, dispatch_pipe] at goes
      exact .later _ thread goes rfl (.unlocks thread _ (Function.update_self ..))
    · rw [dispatch_client config state thread fd listen pipe] at goes
      exact .now _ _ thread (.del_input_fd fd) (List.mem_cons_self ..) goes (if_pos rfl)

theorem Duties.goes_on (duties : Duties config state) (thread : R)
    (left : duty (own thread state.log) ≠ .none) : Does config state thread := by
  have owes := duties.owes thread
  cases place : state.places thread with
  | handing fd => exact .hands thread fd place
  | accepting fd => exact .accepts thread fd place
  | unlocking next => exact .unlocks thread next place
  | receiving fd =>
      refine .now (.go thread) ((state.note thread (.recv_request fd)).at thread .testing) thread
        (.recv_request fd) (List.mem_cons_self ..) ?_ (if_pos rfl)
      rw [EventLoop.step, EventLoop.go, place]
  | _ =>
      rw [place] at owes
      exact absurd owes left

theorem reachable_duties (config : Config) (state : State R) (reached : Reachable config state) :
    Duties config state := by
  apply reached.invariant (Duties config)
  · exact fun state initial => .initial initial
  · intro before action after earlier _ duties moved
    exact (reachable_inv config before earlier).duties_step duties action moved

end Kept

theorem Inv.complete {config : Config} {state : State R} (inv : Inv state)
    (duties : Duties config state) (running : state.stop_task = false)
    (enough : (latest state.log).length ≤ sections state.log) : Complete config state.log := by
  have bounded : state.read ≤ state.size := inv.bounded
  have fast : state.size ≤ sections state.log := enough
  obtain ⟨all, outside⟩ : state.read = state.size ∧ state.holder.inside = 0 := by
    rcases inv.paced with stopped | ⟨all, outside⟩ | pace
    · rw [running] at stopped
      cases stopped
    · exact ⟨all, outside⟩
    · omega
  have order := inv.order
  rw [all] at order
  apply complete_of_all config state.log order
  rw [duties.account]
  have nothing : state.pending = [] := by
    cases owner : state.epoll_mutex with
    | none => rw [State.pending, owner]
    | some thread =>
        rw [pending_held owner]
        apply owing_nil
        intro index fd event
        have owes := duties.owes thread
        rw [event, ← holder_eq owner] at owes
        have inside := owes.event.1
        omega
  rw [nothing, List.nil_append]

/-! A thread leaves the loop for `_stop_task` or for an error other than EINTR. -/

/-- `epoll_wait` has failed with another error. -/
abbrev State.Broken (state : State R) : Prop := .waited .failed ∈ state.log

def State.Explained (state : State R) (thread : R) : Prop :=
  match state.places thread with
  | .exited | .unlocking .leave => state.stop_task = true ∨ state.Broken
  | .failing => state.eintr thread = true ∨ state.Broken
  | .counting => state.ready_event_num < 0 → state.eintr thread = true ∨ state.Broken
  | _ => True

def Place.quiet : Place → Bool
  | .exited | .unlocking .leave | .failing | .counting => false
  | _ => true

omit [DecidableEq R] in
theorem explained_quiet {state : State R} {thread : R} {place : Place}
    (found : state.places thread = place) (quiet : place.quiet = true) :
    state.Explained thread := by
  unfold State.Explained
  rw [found]
  cases place with
  | exited => cases quiet
  | failing => cases quiet
  | counting => cases quiet
  | unlocking next =>
      cases next with
      | leave => cases quiet
      | _ => trivial
  | _ => trivial

omit [DecidableEq R] in
theorem explained_leaving {state : State R} {thread : R} {leaves : Place}
    (found : state.places thread = leaves) (out : leaves = .exited ∨ leaves = .unlocking .leave)
    (why : state.stop_task = true ∨ state.Broken) : state.Explained thread := by
  unfold State.Explained
  rw [found]
  rcases out with rfl | rfl
  · exact why
  · exact why

omit [DecidableEq R] in
theorem explained_failing {state : State R} {thread : R} (found : state.places thread = .failing)
    (why : state.eintr thread = true ∨ state.Broken) : state.Explained thread := by
  unfold State.Explained
  rw [found]
  exact why

omit [DecidableEq R] in
theorem explained_counting {state : State R} {thread : R}
    (found : state.places thread = .counting)
    (why : state.ready_event_num < 0 → state.eintr thread = true ∨ state.Broken) :
    state.Explained thread := by
  unfold State.Explained
  rw [found]
  exact why

omit [DecidableEq R] in
theorem explained_stop {state : State R} {thread : R} {leaves goes : Place}
    (found : state.places thread = if state.stop_task then leaves else goes)
    (out : leaves = .exited ∨ leaves = .unlocking .leave) (quiet : goes.quiet = true) :
    state.Explained thread := by
  by_cases stopped : state.stop_task = true
  · exact explained_leaving (found.trans (if_pos stopped)) out (.inl stopped)
  · exact explained_quiet (found.trans (if_neg stopped)) quiet

omit [DecidableEq R] in
theorem explained_kept {state after : State R} {other : R}
    (explained : state.Explained other) (place : after.places other = state.places other)
    (stop : state.stop_task = true → after.stop_task = true)
    (log : state.Broken → after.Broken)
    (counter : (state.places other).holds = true →
      after.ready_event_num = state.ready_event_num)
    (eintr : after.eintr other = state.eintr other) : after.Explained other := by
  unfold State.Explained at explained ⊢
  rw [place]
  cases found : state.places other with
  | exited =>
      rw [found] at explained
      exact explained.imp stop log
  | failing =>
      rw [found] at explained
      rw [eintr]
      exact explained.imp_right log
  | counting =>
      rw [found] at explained
      rw [eintr, counter (by rw [found]; rfl)]
      exact fun negative => (explained negative).imp_right log
  | unlocking next =>
      cases next with
      | leave =>
          rw [found] at explained
          exact explained.imp stop log
      | _ => trivial
  | _ => trivial

theorem Inv.explained_step {state after : State R} (inv : Inv state)
    (all : ∀ thread, state.Explained thread) (thread : R) (place : Place)
    (places : after.places = (state.at thread place).places)
    (stop : state.stop_task = true → after.stop_task = true)
    (log : state.Broken → after.Broken)
    (counter : after.ready_event_num = state.ready_event_num ∨
      (state.places thread).holds = true)
    (eintr : ∀ other, other ≠ thread → after.eintr other = state.eintr other)
    (own : after.places thread = place → after.Explained thread) :
    ∀ other, after.Explained other := by
  intro other
  by_cases self : other = thread
  · subst self
    exact own (by rw [places, places_at, if_pos rfl])
  · have same : after.places other = state.places other := by
      rw [places, places_at, if_neg self]
    apply explained_kept (all other) same stop log _ (eintr other self)
    intro held
    rcases counter with kept | owns
    · exact kept
    · have first := (inv.mutex thread).mp owns
      have second := (inv.mutex other).mp held
      rw [first, Option.some.injEq] at second
      exact absurd second.symm self

theorem Inv.explained_go {config : Config} {state after : State R} (inv : Inv state)
    (all : ∀ thread, state.Explained thread) (thread : R)
    (moved : EventLoop.go config state thread = some after) :
    ∀ other, after.Explained other := by
  have here := all thread
  unfold State.Explained at here
  -- What has to be explained is a negative count, and a thread that leaves.
  cases go_went config state after thread moved with
  | tested place =>
      refine inv.explained_step all thread _ rfl id id (.inl rfl) (fun _ _ => rfl) fun found => ?_
      exact explained_stop found (.inl rfl) rfl
  | entered place free =>
      refine inv.explained_step all thread .locked rfl id id (.inl rfl) (fun _ _ => rfl)
        fun found => ?_
      exact explained_quiet found rfl
  | again place =>
      refine inv.explained_step all thread _ rfl id id (.inl rfl) (fun _ _ => rfl) fun found => ?_
      exact explained_stop found (.inr rfl) rfl
  | counted place =>
      refine inv.explained_step all thread _ rfl id id (.inr (by rw [place]; rfl))
        (fun _ _ => rfl) fun found => ?_
      simp only [place] at here
      by_cases negative : state.ready_event_num < 0
      · exact explained_failing (found.trans (if_pos negative)) (here negative)
      · exact explained_quiet (found.trans (if_neg negative)) rfl
  | failed place =>
      refine inv.explained_step all thread _ rfl id (List.mem_cons_of_mem _) (.inl rfl)
        (fun _ _ => rfl) fun found => ?_
      simp only [place] at here
      by_cases interrupted : state.eintr thread = true
      · exact explained_quiet (found.trans (if_pos interrupted)) rfl
      · exact explained_leaving (found.trans (if_neg interrupted)) (.inl rfl)
          (.inr (List.mem_cons_of_mem _ (here.resolve_left interrupted)))
  | @took fd place event =>
      refine inv.explained_step all thread (.handing fd) rfl id (List.mem_cons_of_mem _)
        (.inl rfl) (fun _ _ => rfl) fun found => ?_
      exact explained_quiet found rfl
  | listened place =>
      refine inv.explained_step all thread (.accepting config.listen) rfl id id (.inl rfl)
        (fun _ _ => rfl) fun found => ?_
      exact explained_quiet found rfl
  | woken place =>
      refine inv.explained_step all thread (.unlocking .again) rfl id id (.inl rfl)
        (fun _ _ => rfl) fun found => ?_
      exact explained_quiet found rfl
  | @removed fd place listen pipe =>
      refine inv.explained_step all thread (.unlocking (.recv_request fd)) rfl id
        (List.mem_cons_of_mem _) (.inl rfl) (fun _ _ => rfl) fun found => ?_
      exact explained_quiet found rfl
  | @unlocked next place =>
      refine inv.explained_step all thread _ rfl id (List.mem_cons_of_mem _) (.inl rfl)
        (fun _ _ => rfl) fun found => ?_
      simp only [place] at here
      cases next with
      | leave =>
          exact explained_leaving found (.inl rfl) (here.imp id (List.mem_cons_of_mem _))
      | again => exact explained_quiet found rfl
      | recv_request fd => exact explained_quiet found rfl
  | received place =>
      refine inv.explained_step all thread .testing rfl id (List.mem_cons_of_mem _) (.inl rfl)
        (fun _ _ => rfl) fun found => ?_
      exact explained_quiet found rfl

theorem Inv.explained {config : Config} {state after : State R} (inv : Inv state)
    (all : ∀ thread, state.Explained thread) (action : Action R)
    (moved : EventLoop.step config state action = some after) :
    ∀ thread, after.Explained thread := by
  cases action with
  | stop =>
      cases moved
      intro thread
      exact explained_kept (all thread) rfl (fun _ => rfl) id (fun _ => rfl) rfl
  | go thread => exact inv.explained_go all thread moved
  | wait thread result =>
      simp only [EventLoop.step, wait] at moved
      split at moved
      · rename_i meets
        have owns : (state.places thread).holds = true := by
          rw [meets.1]
          rfl
        split at moved
        · cases moved
          cases result with
          | events batch =>
              refine inv.explained_step all thread .counting rfl id (List.mem_cons_of_mem _)
                (.inr owns) (fun _ _ => rfl) ?_
              intro found
              apply explained_counting found
              intro negative
              simp only [epoll_wait, State.at] at negative
              omega
          | interrupted =>
              refine inv.explained_step all thread .counting rfl id (List.mem_cons_of_mem _)
                (.inr owns) (fun _ differs => Function.update_of_ne differs ..) ?_
              exact fun found => explained_counting found fun _ => .inl (Function.update_self ..)
          | failed =>
              refine inv.explained_step all thread .counting rfl id (List.mem_cons_of_mem _)
                (.inr owns) (fun _ differs => Function.update_of_ne differs ..) ?_
              exact fun found => explained_counting found fun _ => .inr List.mem_cons_self
        · rename_i positive
          cases moved
          refine inv.explained_step all thread .counting rfl id id (.inl rfl) (fun _ _ => rfl) ?_
          intro found
          apply explained_counting found
          intro negative
          exact absurd (Int.le_of_lt negative) positive
      · cases moved
  | accept thread more =>
      simp only [EventLoop.step, accept] at moved
      split at moved
      · cases moved
        refine inv.explained_step all thread _ rfl id (List.mem_cons_of_mem _) (.inl rfl)
          (fun _ _ => rfl) ?_
        intro found
        cases more with
        | true => exact explained_quiet found rfl
        | false => exact explained_quiet found rfl
      · cases moved

theorem reachable_explained (config : Config) (state : State R)
    (reached : Reachable config state) : ∀ thread, state.Explained thread := by
  apply reached.invariant fun state => ∀ thread, state.Explained thread
  · intro state initial thread
    unfold State.Explained
    rw [initial.places thread]
    trivial
  · intro before action after earlier _ all moved
    exact (reachable_inv config before earlier.reachable).explained all action moved

/-- Over any interleaving: the array is read inside the latest batch, and what a thread does is
what its last deeds leave it to do, so that with an event it does what the descriptor asks for;
while something is left to do it comes to it by its own steps. `epoll_wait` is called when every
event has been dispatched, and none is dispatched twice; unless the server is stopped, as many
sections as a batch has events dispatch all of it and no thread leaves the loop. -/
theorem events_dispatched_once (config : Config) (state : State R)
    (reached : Reachable config state) :
    (∀ later older thread (index : Int) fd,
        state.log = later ++ .did thread (.read index fd) :: older →
        0 ≤ index ∧ index < (latest older).length ∧
          (latest older)[index.toNat]? = some fd) ∧
      (∀ later older thread deed, state.log = later ++ .did thread deed :: older →
        Fulfils config deed (duty (own thread older))) ∧
      (∀ thread, duty (own thread state.log) ≠ .none → Does config state thread) ∧
      (∀ later older result, state.log = later ++ .waited result :: older →
        Complete config older) ∧
      (∀ index, (dispatchers config state.log index).length ≤ 1) ∧
      (state.stop_task = false →
        ((latest state.log).length ≤ sections state.log → Complete config state.log) ∧
          (.waited .failed ∉ state.log → ∀ thread, state.places thread ≠ .exited)) := by
  have inv := reachable_inv config state reached
  have duties := reachable_duties config state reached
  refine ⟨?_, ?_, ?_, ?_, ?_, fun running => ⟨?_, ?_⟩⟩
  · intro later older thread index fd split
    have sound := inv.sound
    rw [split] at sound
    exact sound.at
  · intro later older thread deed split
    have obeyed := duties.obeyed
    rw [split] at obeyed
    exact obeyed.at
  · exact fun thread left => duties.goes_on thread left
  · intro later older result split
    have sound := inv.sound
    have obeyed := duties.obeyed
    rw [split] at sound obeyed
    exact complete_of_all config older sound.at obeyed.at
  · intro index
    have distinct : ((taken state.log).map Prod.snd).Nodup := inv.order ▸ indices_nodup _ _
    rw [duties.account, List.map_append] at distinct
    exact readers_once _ (List.nodup_append.mp distinct).2.1 index
  · intro enough
    exact inv.complete duties running enough
  · intro sane thread gone
    have explained := reachable_explained config state reached thread
    unfold State.Explained at explained
    rw [gone, running] at explained
    rcases explained with stopped | broken
    · cases stopped
    · exact sane broken

end Duties

/-! Two threads: an interrupted call, then a batch of a client and a new connection that they
share. -/

def pairConfig : Config :=
  { listen := 0, pipe_read := 1, distinct := by decide, info := fun _ => none }

def pairStart : State Bool where
  stop_task := false
  epoll_mutex := none
  ready_event := fun _ => 0
  ready_event_num := 0
  eintr := fun _ => false
  places := fun _ => .testing
  log := []

def pairRun : List (Action Bool) :=
  [.go true, .go true, .go true, .wait true .interrupted, .go true, .go true,
    .go true, .go true, .go true, .wait true (.events [7, 0]), .go true, .go true, .go true,
    .accept true true, .accept true false, .go true,
    .go false, .go false, .go false, .wait false .interrupted, .go false, .go false, .go false,
    .go false, .go false]

theorem events_dispatched_once_example :
    ∃ state : State Bool, Reachable pairConfig state ∧ latest state.log = [7, 0] ∧
      own false state.log = [.recv_request 7, .unlock, .del_input_fd 7, .read 0 7] ∧
      Complete pairConfig state.log := by
  have start : Reachable pairConfig pairStart := .start ⟨rfl, rfl, rfl, fun _ => rfl, rfl⟩
  obtain ⟨state, reached, shown⟩ := Transition.exec_reaches start pairRun
    (fun state => decide (latest state.log = [7, 0] ∧
      own false state.log = [.recv_request 7, .unlock, .del_input_fd 7, .read 0 7] ∧
      state.stop_task = false ∧ (latest state.log).length ≤ sections state.log)) (by decide)
  obtain ⟨batch, deeds, running, enough⟩ := of_decide_eq_true shown
  have complete := (events_dispatched_once pairConfig state reached).2.2.2.2.2 running
  exact ⟨state, reached, batch, deeds, complete.1 enough⟩

end AsrServer.EventLoop
