import AsrServer.AtRest
import AsrServer.Fragmentation
import AsrServer.Settling

/-!
What the workers get of a client's bytes while all threads run. `requestsOf` reads a byte
string with no threads and no buffers: the requests that framing takes off its front. In every
interleaving, and however the bytes arrive, the requests submitted for a connection are a front
of that list, and between two requests the rest of it is the buffer followed by what the kernel
still holds, so none is lost, altered or submitted twice. The history goes along with the server
and has no influence on it.
-/

namespace AsrServer.RequestStream

open Bytes ReadPath Framing Fragmentation Server Ownership References AtRest

/-! Framing alone. -/
section Framing
variable (info : List Byte → Option Int)

def requestIn : Outcome → List (List Byte)
  | .submitted _ request => [request]
  | _ => []

def requestsIn (count : Nat) (bytes : List Byte) : List (List Byte) :=
  (frames info count bytes).flatMap fun shown => requestIn shown.1

/-- All its requests: a message has its terminator, so there are no more than bytes. -/
def requestsOf (bytes : List Byte) : List (List Byte) := requestsIn info bytes.length bytes

variable {info}

inductive Ends (info : List Byte → Option Int) (http rest : List Byte) :
    Outcome × List Byte → Prop where
  | invalid (rejected : verdict info http = none) : Ends info http rest (.invalid http, rest)
  | submitted {length request last} (accepted : verdict info http = some length)
      (body : nextBody rest length = (.ret length request, last)) :
      Ends info http rest (.submitted http request, last)

theorem nextHeader_more (bytes http rest : List Byte)
    (opened : nextHeader bytes = (.complete http, rest)) :
    rest.length < bytes.length ∧
      ∀ more, nextHeader (bytes ++ more) = (.complete http, rest ++ more) := by
  unfold nextHeader at opened
  cases cut : cut_header bytes with
  | none => simp [cut] at opened
  | some parts =>
      rw [cut, Option.getD_some] at opened
      subst opened
      have shorter := (Settling.cut_length bytes rest _ cut).2 http rfl
      refine ⟨by omega, ?_⟩
      intro more
      exact nextHeader_found _ _ _ (cut_append bytes more _ rest cut)

theorem nextBody_more (bytes request rest : List Byte) (length : Int)
    (taken : nextBody bytes length = (.ret length request, rest)) (more : List Byte) :
    nextBody (bytes ++ more) length = (.ret length request, rest ++ more) := by
  obtain ⟨split, size⟩ := nextBody_complete bytes request rest length taken
  subst split
  rw [nextBody_whole _ _ (by omega) (by simp only [List.length_append]; omega)]
  have front : length.toNat = request.length := by omega
  rw [front, List.append_assoc, List.take_left, List.drop_left]

theorem Ends.more {http rest : List Byte} {shown : Outcome × List Byte}
    (ends : Ends info http rest shown) (more : List Byte) :
    Ends info http (rest ++ more) (shown.1, shown.2 ++ more) := by
  cases ends with
  | invalid rejected => exact .invalid rejected
  | submitted accepted body => exact .submitted accepted (nextBody_more _ _ _ _ body more)

theorem Ends.shorter {http rest : List Byte} {shown : Outcome × List Byte}
    (ends : Ends info http rest shown) : shown.2.length ≤ rest.length := by
  cases ends with
  | invalid => exact le_rfl
  | @submitted length request last accepted body =>
      obtain ⟨split, _⟩ := nextBody_complete rest request last length body
      rw [split, List.length_append]
      exact Nat.le_add_left ..

theorem Ends.rearmed {http rest : List Byte} {shown : Outcome × List Byte}
    (ends : Ends info http rest shown) : shown.1.rearmed = true := by
  cases ends <;> rfl

theorem frame_of_ends (bytes http rest : List Byte) (shown : Outcome × List Byte)
    (opened : nextHeader bytes = (.complete http, rest)) (ends : Ends info http rest shown) :
    frame info bytes = shown := by
  unfold frame
  rw [opened]
  cases ends with
  | invalid rejected => simp only [rejected]
  | submitted accepted body => simp only [accepted, body, ↓reduceIte]

theorem ends_of_frame (bytes : List Byte) (rearmed : (frame info bytes).1.rearmed = true) :
    ∃ http rest, nextHeader bytes = (.complete http, rest) ∧
      Ends info http rest (frame info bytes) := by
  unfold frame at rearmed ⊢
  split
  · rename_i opened
    simp [opened, Outcome.rearmed] at rearmed
  · rename_i opened
    simp [opened, Outcome.rearmed] at rearmed
  · rename_i http rest opened
    refine ⟨http, rest, opened, ?_⟩
    simp only [opened] at rearmed
    split
    · rename_i rejected
      exact .invalid rejected
    · rename_i length accepted
      simp only [accepted] at rearmed
      split
      · rename_i body
        simp [body, Outcome.rearmed] at rearmed
      · rename_i count request last body
        simp only [body] at rearmed
        split
        · rename_i whole
          subst whole
          exact .submitted accepted body
        · rename_i short
          simp [short, Outcome.rearmed] at rearmed

theorem frame_more (bytes : List Byte) (rearmed : (frame info bytes).1.rearmed = true)
    (more : List Byte) :
    frame info (bytes ++ more) = ((frame info bytes).1, (frame info bytes).2 ++ more) := by
  obtain ⟨http, rest, opened, ends⟩ := ends_of_frame bytes rearmed
  have later := (nextHeader_more bytes http rest opened).2 more
  exact frame_of_ends _ _ _ _ later (ends.more more)

theorem frame_shorter (bytes : List Byte) (rearmed : (frame info bytes).1.rearmed = true) :
    (frame info bytes).2.length < bytes.length := by
  obtain ⟨http, rest, opened, ends⟩ := ends_of_frame bytes rearmed
  exact Nat.lt_of_le_of_lt ends.shorter (nextHeader_more bytes http rest opened).1

theorem requestsIn_succ (count : Nat) (bytes : List Byte) :
    requestsIn info (count + 1) bytes =
      if (frame info bytes).1.rearmed then
        requestIn (frame info bytes).1 ++ requestsIn info count (frame info bytes).2
      else [] := by
  unfold requestsIn
  rw [frames, List.flatMap_cons]
  split
  · rfl
  · rename_i closes
    cases shown : (frame info bytes).1 <;> simp [shown, Outcome.rearmed, requestIn] at closes ⊢

theorem frame_nil : (frame info []).1.rearmed = false := by
  cases rearmed : (frame info []).1.rearmed with
  | false => rfl
  | true => exact absurd (frame_shorter [] rearmed) (Nat.not_lt_zero _)

theorem requestsIn_enough (first second : Nat) (bytes : List Byte)
    (one : bytes.length ≤ first) (two : bytes.length ≤ second) :
    requestsIn info first bytes = requestsIn info second bytes := by
  induction first generalizing second bytes with
  | zero =>
      have empty := List.length_eq_zero_iff.mp (Nat.le_zero.mp one)
      subst empty
      cases second with
      | zero => rfl
      | succ second =>
          rw [requestsIn_succ, frame_nil]
          rfl
  | succ first ih =>
      cases second with
      | zero =>
          have empty := List.length_eq_zero_iff.mp (Nat.le_zero.mp two)
          subst empty
          rw [requestsIn_succ, frame_nil]
          rfl
      | succ second =>
          rw [requestsIn_succ, requestsIn_succ]
          split
          · rename_i rearmed
            have shorter := frame_shorter bytes rearmed
            rw [ih second _ (by omega) (by omega)]
          · rfl

theorem requestsOf_more (bytes : List Byte) (rearmed : (frame info bytes).1.rearmed = true)
    (more : List Byte) :
    requestsOf info (bytes ++ more) =
      requestIn (frame info bytes).1 ++ requestsOf info ((frame info bytes).2 ++ more) := by
  have shorter := frame_shorter bytes rearmed
  obtain ⟨count, fuel⟩ : ∃ count, (bytes ++ more).length = count + 1 :=
    ⟨(bytes ++ more).length - 1, by rw [List.length_append]; omega⟩
  rw [requestsOf, fuel, requestsIn_succ, frame_more bytes rearmed, if_pos rearmed]
  rw [List.length_append] at fuel
  rw [requestsOf, requestsIn_enough count ((frame info bytes).2 ++ more).length _ ?_ le_rfl]
  rw [List.length_append]
  omega

end Framing

/-! Where a connection stands in its stream. -/

/-- What a thread is at with a connection, where its buffer alone does not say how far the
stream has been used. -/
def glance (files : Fd → Option File) (conn : ConnId) : Receiver → Option Receiver
  | .accepted fd | .counted fd =>
      if files fd = some (.conn conn) then some (.accepted fd) else none
  | .parsed fd hdle http id => if id = conn then some (.parsed fd hdle http id) else none
  | .submitting fd hdle request id =>
      if id = conn then some (.submitting fd hdle request id) else none
  | .failing fd hdle => if files fd = some (.conn conn) then some (.failing fd hdle) else none
  | _ => none

section Stands
variable {R L : Type}

def engaged (state : State R L) (conn : ConnId) (receiver : R) : Option Receiver :=
  glance state.files conn (state.receivers receiver)

/-- What is buffered and unread is behind what the thread has taken, which begins `rest`. -/
def Tells (info : List Byte → Option Int) (state : State R L) (conn : ConnId)
    (rest : List Byte) : Receiver → Prop
  | .accepted _ => rest = state.unread conn
  | .parsed _ hdle http _ => ∀ value, connected state hdle = some (value, conn) →
      nextHeader rest = (.complete http, value.read_buf ++ state.unread conn)
  | .submitting _ hdle request _ => ∀ value, connected state hdle = some (value, conn) →
      ∃ http, frame info rest = (.submitted http request, value.read_buf ++ state.unread conn)
  | _ => True

/-- `rest` is what of the connection's stream has not been used. -/
structure Stands (info : List Byte → Option Int) (state : State R L) (conn : ConnId)
    (rest : List Byte) : Prop where
  fresh : state.nextConn ≤ conn → rest = state.unread conn
  engaged : ∀ receiver place, engaged state conn receiver = some place →
    Tells info state conn rest place
  between : ∀ hdle value, connected state hdle = some (value, conn) → value.failed = false →
    (∀ receiver, RequestStream.engaged state conn receiver = none) →
    rest = value.read_buf ++ state.unread conn

variable {config : Config} {table : Fd → Stage R} {state : State R L} {conn : ConnId}

theorem engaged_owner (linked : Linked config table state) (receiver : R) (place : Receiver)
    (here : engaged state conn receiver = some place) :
    ∃ fd, (table fd).conn = some conn ∧ (table fd).owner = some receiver := by
  -- The stage of the descriptor has the connection that its file has.
  have same (fd : Fd) (id : ConnId) (there : state.files fd = some (.conn conn))
      (stage : (table fd).conn = some id) : id = conn := by
    rw [linked.file fd] at there
    cases found : table fd <;> rw [found] at there stage <;> cases stage <;> cases there <;> rfl
  have owns := linked.owners receiver
  unfold engaged at here
  cases at' : state.receivers receiver with
  | accepted fd | counted fd =>
      rw [at'] at owns here
      obtain ⟨id, stage⟩ := owns
      obtain ⟨there, _⟩ := Option.ite_none_right_eq_some.mp here
      have shared := same fd id there (by rw [stage]; rfl)
      exact ⟨fd, by rw [stage, ← shared]; rfl, by rw [stage]; rfl⟩
  | failing fd hdle =>
      rw [at'] at owns here
      obtain ⟨id, stage⟩ := owns
      obtain ⟨there, _⟩ := Option.ite_none_right_eq_some.mp here
      have shared := same fd id there (by rw [stage]; rfl)
      exact ⟨fd, by rw [stage, ← shared]; rfl, by rw [stage]; rfl⟩
  | parsed fd hdle bytes id | submitting fd hdle bytes id =>
      rw [at'] at owns here
      have stage : table fd = .held receiver hdle id := owns
      obtain ⟨shared, _⟩ := Option.ite_none_right_eq_some.mp here
      exact ⟨fd, by rw [stage, ← shared]; rfl, by rw [stage]; rfl⟩
  | _ =>
      rw [at'] at here
      cases here

theorem engaged_only (linked : Linked config table state) (fd : Fd) (acting : R)
    (stage : (table fd).conn = some conn) (owner : (table fd).owner = some acting)
    (receiver : R) (place : Receiver) (here : engaged state conn receiver = some place) :
    receiver = acting := by
  obtain ⟨other, there, owns⟩ := engaged_owner linked receiver place here
  rw [linked.apart other fd conn there stage, owner] at owns
  cases owns
  rfl

theorem connected_only (linked : Linked config table state) (first second : HandleId)
    (one two : SocketHandle) (here : connected state first = some (one, conn))
    (there : connected state second = some (two, conn)) : first = second ∧ one = two := by
  obtain ⟨live, file⟩ := (connected_iff state first one conn).mp here
  obtain ⟨held, other⟩ := (connected_iff state second two conn).mp there
  obtain ⟨id, stage, mine⟩ := linked.connection first one live
  obtain ⟨key, place, his⟩ := linked.connection second two held
  rw [file] at mine
  rw [other] at his
  cases mine
  cases his
  have same := linked.same first second one two live held (linked.apart _ _ _ stage place)
  subst same
  rw [live] at held
  cases held
  exact ⟨rfl, rfl⟩

theorem Stands.kept {info : List Byte → Option Int} {rest : List Byte}
    (stands : Stands info state conn rest) (after : State R L)
    (nextConn : state.nextConn ≤ after.nextConn)
    (unread : after.unread conn = state.unread conn)
    (threads : ∀ receiver, RequestStream.engaged after conn receiver =
      RequestStream.engaged state conn receiver)
    (handles : ∀ hdle value, connected after hdle = some (value, conn) →
      ∃ old, connected state hdle = some (old, conn) ∧
        (old.failed, old.read_buf) = (value.failed, value.read_buf)) :
    Stands info after conn rest where
  fresh := by
    intro new
    rw [unread]
    exact stands.fresh (Nat.le_trans nextConn new)
  engaged := by
    intro receiver place here
    rw [threads receiver] at here
    have tells := stands.engaged receiver place here
    -- What a thread has in hand is told by the unread bytes and its handle's buffer.
    cases place with
    | accepted fd =>
        rw [Tells, unread]
        exact tells
    | parsed fd hdle http id =>
        intro value connects
        obtain ⟨old, before, same⟩ := handles hdle value connects
        simp only [Prod.mk.injEq] at same
        rw [unread, ← same.2]
        exact tells old before
    | submitting fd hdle request id =>
        intro value connects
        obtain ⟨old, before, same⟩ := handles hdle value connects
        simp only [Prod.mk.injEq] at same
        rw [unread, ← same.2]
        exact tells old before
    | _ => trivial
  between := by
    intro hdle value connects sound alone
    obtain ⟨old, before, same⟩ := handles hdle value connects
    simp only [Prod.mk.injEq] at same
    rw [unread, ← same.2]
    exact stands.between hdle old before (same.1.trans sound)
      fun receiver => (threads receiver).symm.trans (alone receiver)

theorem stands_taken {info : List Byte → Option Int} {rest : List Byte}
    (linked : Linked config table state) (acting : R) (place : Receiver)
    (here : engaged state conn acting = some place) (tells : Tells info state conn rest place) :
    Stands info state conn rest := by
  obtain ⟨fd, stage, owner⟩ := engaged_owner linked acting place here
  constructor
  case fresh =>
    intro new
    exact absurd (linked.freshConn fd conn stage) (Nat.not_lt.mpr new)
  case engaged =>
    intro receiver other there
    have same := engaged_only linked fd acting stage owner receiver other there
    subst same
    rw [here] at there
    cases there
    exact tells
  case between =>
    intro hdle value connects sound alone
    rw [alone acting] at here
    cases here

theorem stands_between {info : List Byte → Option Int} {rest : List Byte}
    (linked : Linked config table state) (hdle : HandleId) (value : SocketHandle)
    (connects : connected state hdle = some (value, conn))
    (alone : ∀ receiver, engaged state conn receiver = none)
    (split : value.failed = false → rest = value.read_buf ++ state.unread conn) :
    Stands info state conn rest := by
  obtain ⟨live, file⟩ := (connected_iff state hdle value conn).mp connects
  obtain ⟨id, stage, mine⟩ := linked.connection hdle value live
  rw [file] at mine
  cases mine
  constructor
  case fresh =>
    intro new
    exact absurd (linked.freshConn value.fd conn stage) (Nat.not_lt.mpr new)
  case engaged =>
    intro receiver other there
    rw [alone receiver] at there
    cases there
  case between =>
    intro other found there sound _
    obtain ⟨_, same⟩ := connected_only linked hdle other value found connects there
    subst same
    exact split sound

/-! What a step leaves as it is. -/

theorem file_apart (files : Fd → Option File) (fd : Fd) (conn id : ConnId)
    (file : files fd = some (.conn id)) (apart : conn ≠ id) : files fd ≠ some (.conn conn) := by
  intro there
  rw [file] at there
  cases there
  exact apart rfl

theorem engaged_at [DecidableEq R] (after : State R L) (acting : R) (place : Receiver)
    (receivers : after.receivers = Function.update state.receivers acting place)
    (files : after.files = state.files)
    (same : glance state.files conn place = glance state.files conn (state.receivers acting))
    (receiver : R) : engaged after conn receiver = engaged state conn receiver := by
  unfold engaged
  rw [receivers, files]
  by_cases here : receiver = acting
  · rw [here, Function.update_self, same]
  · rw [Function.update_of_ne here]

theorem glance_files (linked : Linked config table state) (fd : Fd) (file : Option File)
    (unowned : (table fd).owner = none) (receiver : R) :
    glance (Function.update state.files fd file) conn (state.receivers receiver) =
      engaged state conn receiver := by
  have owns := linked.owners receiver
  unfold engaged
  cases at' : state.receivers receiver with
  | accepted own | counted own =>
      rw [at'] at owns
      obtain ⟨id, stage⟩ := owns
      have apart : own ≠ fd := by
        intro same
        rw [← same, stage] at unowned
        cases unowned
      simp only [glance, Function.update_of_ne apart]
  | failing own hdle =>
      rw [at'] at owns
      obtain ⟨id, stage⟩ := owns
      have apart : own ≠ fd := by
        intro same
        rw [← same, stage] at unowned
        cases unowned
      simp only [glance, Function.update_of_ne apart]
  | _ => rfl

theorem connected_put (after : State R L) (held : HandleId) (old next : SocketHandle)
    (live : state.handles held = some old) (fd : next.fd = old.fd)
    (handles : after.handles = Function.update state.handles held (some next))
    (files : after.files = state.files)
    (own : connected state held = some (old, conn) →
      (old.failed, old.read_buf) = (next.failed, next.read_buf))
    (hdle : HandleId) (value : SocketHandle)
    (connects : connected after hdle = some (value, conn)) :
    ∃ old, connected state hdle = some (old, conn) ∧
      (old.failed, old.read_buf) = (value.failed, value.read_buf) := by
  obtain ⟨found, file⟩ := (connected_iff after hdle value conn).mp connects
  rw [files] at file
  rw [handles] at found
  by_cases here : hdle = held
  · rw [here, Function.update_self, Option.some.injEq] at found
    subst found
    have before : connected state held = some (old, conn) :=
      (connected_iff state held old conn).mpr ⟨live, fd ▸ file⟩
    exact ⟨old, here ▸ before, own before⟩
  · rw [Function.update_of_ne here] at found
    exact ⟨value, (connected_iff state hdle value conn).mpr ⟨found, file⟩, rfl⟩

theorem released_stands {info : List Byte → Option Int} {rest : List Byte}
    (linked : Linked config table state) (stands : Stands info state conn rest)
    (held : HandleId) (old : SocketHandle) (next after : State R L)
    (live : state.handles held = some old) (released : Released state held old next)
    (same : (after.handles, after.files, after.unread, after.nextConn) =
      (next.handles, next.files, next.unread, next.nextConn))
    (threads : ∀ receiver, engaged after conn receiver =
      glance after.files conn (state.receivers receiver)) : Stands info after conn rest := by
  simp only [Prod.mk.injEq] at same
  obtain ⟨handles, files, unread, nextConn⟩ := same
  cases released with
  | kept still =>
      refine stands.kept after (Nat.le_of_eq nextConn.symm) (by rw [unread]; rfl) ?_
        (connected_put after held old { old with ref := old.ref - 1 } live rfl handles files
          fun _ => rfl)
      intro receiver
      rw [threads receiver, files]
      rfl
  | closed last failed =>
      obtain ⟨id, stage⟩ := linked.failed held old live failed
      refine stands.kept after (Nat.le_of_eq nextConn.symm) (by rw [unread]; rfl) ?_ ?_
      · intro receiver
        rw [threads receiver, files]
        exact glance_files linked old.fd none (by rw [stage]; rfl) receiver
      · intro hdle value connects
        obtain ⟨found, file⟩ := (connected_iff after hdle value conn).mp connects
        rw [handles] at found
        rw [files] at file
        have apart : hdle ≠ held := by
          intro here
          simp [here] at found
        have elsewhere : value.fd ≠ old.fd := by
          intro here
          simp [here] at file
        simp only [Function.update_of_ne apart] at found
        simp only [Function.update_of_ne elsewhere] at file
        exact ⟨value, (connected_iff state hdle value conn).mpr ⟨found, file⟩, rfl⟩

/-- A connection that epoll watches is between two messages. -/
theorem watched_rest {info : List Byte → Option Int} {rest : List Byte}
    (linked : Linked config table state) (stands : Stands info state conn rest) (fd : Fd)
    (hdle : HandleId) (value : SocketHandle)
    (file : state.files fd = some (.conn conn)) (armed : state.interest fd = true)
    (entry : state.m_fd_set.lookup fd = some hdle) (live : state.handles hdle = some value) :
    rest = value.read_buf ++ state.unread conn := by
  have here := linked.entered fd hdle value entry live
  subst here
  obtain ⟨id, stage, mine⟩ := linked.connection hdle value live
  rw [file] at mine
  cases mine
  rw [linked.interest] at armed
  refine stands.between hdle value ((connected_iff ..).mpr ⟨live, file⟩) ?_ ?_
  · by_contra failed
    obtain ⟨other, flagged⟩ := linked.failed hdle value live (by simpa using failed)
    rw [flagged] at armed
    cases armed
  · intro receiver
    cases at' : engaged state conn receiver with
    | none => rfl
    | some place =>
        obtain ⟨other, there, owner⟩ := engaged_owner linked receiver place at'
        rw [linked.apart other value.fd conn there stage] at owner
        cases found : table value.fd <;> rw [found] at armed owner <;> cases owner <;> cases armed

/-! What a step does to the connection it is about. -/
section Own
variable [DecidableEq R] {info : List Byte → Option Int} {rest : List Byte}

omit [DecidableEq R] in
theorem held_alone (linked : Linked config table state) (fd : Fd) (acting : R)
    (stage : (table fd).conn = some conn) (owner : (table fd).owner = some acting)
    (off : engaged state conn acting = none) (receiver : R) :
    engaged state conn receiver = none := by
  cases here : engaged state conn receiver with
  | none => rfl
  | some place =>
      have same := engaged_only linked fd acting stage owner receiver place here
      rw [← here, same, off]

theorem left_alone (linked : Linked config table state) (after : State R L) (fd : Fd) (acting : R)
    (place : Receiver) (stage : (table fd).conn = some conn)
    (owner : (table fd).owner = some acting)
    (receivers : after.receivers = Function.update state.receivers acting place)
    (files : after.files = state.files) (off : glance state.files conn place = none)
    (receiver : R) : engaged after conn receiver = none := by
  by_cases here : receiver = acting
  · unfold engaged
    rw [receivers, files, here, Function.update_self, off]
  · have before : engaged state conn receiver = none := by
      cases there : engaged state conn receiver with
      | none => rfl
      | some other =>
          exact absurd (engaged_only linked fd acting stage owner receiver other there) here
    unfold engaged at before ⊢
    rw [receivers, files, Function.update_of_ne here, before]

theorem after_connected (acting : R) (place : Receiver) (hdle : HandleId)
    (old value : SocketHandle) (left : Conn)
    (connects : connected ((state.after hdle old conn left).at acting place) hdle =
      some (value, conn)) :
    value.read_buf ++ ((state.after hdle old conn left).at acting place).unread conn =
      left.pending := by
  obtain ⟨live, _⟩ := (connected_iff _ hdle value conn).mp connects
  simp only [State.at, State.after, State.put, Function.update_self, Option.some.injEq] at live ⊢
  subst live
  rfl

theorem other_after (stands : Stands info state conn rest) (acting : R) (place : Receiver)
    (hdle : HandleId) (value : SocketHandle) (id : ConnId) (left : Conn)
    (live : state.handles hdle = some value) (file : state.files value.fd = some (.conn id))
    (apart : conn ≠ id) (was : engaged state conn acting = none)
    (off : glance state.files conn place = none) :
    Stands info ((state.after hdle value id left).at acting place) conn rest := by
  refine stands.kept _ le_rfl ?_ ?_ ?_
  · simp only [State.at, State.after, Function.update_of_ne apart]
  · exact engaged_at _ acting place rfl rfl (off.trans was.symm)
  · refine connected_put _ hdle value { value with read_buf := left.read_buf } live rfl rfl rfl ?_
    intro connects
    obtain ⟨_, other⟩ := (connected_iff state hdle value conn).mp connects
    rw [file] at other
    cases other
    exact absurd rfl apart

/-- A header is read: it is what `rest` begins with. -/
theorem header_stands (linked : Linked config table state) (next : Fd → Stage R)
    (receiver : R) (fd : Fd) (hdle : HandleId) (value : SocketHandle) (id : ConnId)
    (result : HeaderResult) (left : Conn) (plan : List Nat) (place : Receiver)
    (after : Linked config next ((state.after hdle value id left).at receiver place))
    (stands : Stands info state conn rest) (clean : 0 ∉ state.unread id)
    (was : state.receivers receiver = .receiving fd hdle)
    (live : state.handles hdle = some value) (file : state.files value.fd = some (.conn id))
    (ran : read_http_header_timeout ⟨value.read_buf, state.unread id, plan⟩ = (result, left))
    (goes : (∃ http, result = .complete http ∧ place = .parsed fd hdle http id) ∨
      place = .failing fd hdle) :
    Stands info ((state.after hdle value id left).at receiver place) conn rest := by
  obtain ⟨origin, stage⟩ : ∃ origin, table fd = .held receiver hdle origin :=
    (was ▸ linked.owners receiver :)
  have shared := conn_of_held linked receiver fd hdle origin id value stage live file
  subst shared
  obtain ⟨here, sound, _⟩ := held_value linked receiver fd hdle origin value stage live
  have idle : engaged state conn receiver = none := by
    unfold engaged
    rw [was]
    rfl
  -- The thread's own connection goes on from this header; another one keeps all it has.
  by_cases own : conn = origin
  · subst own
    have alone := held_alone linked fd receiver (by rw [stage]; rfl) (by rw [stage]; rfl) idle
    have split := stands.between hdle value ((connected_iff ..).mpr ⟨live, file⟩) sound alone
    have there : engaged ((state.after hdle value conn left).at receiver place) conn receiver =
        some place := by
      unfold engaged
      simp only [State.at, State.after, State.put, Function.update_self]
      rcases goes with ⟨http, _, same⟩ | same <;> rw [same]
      · exact if_pos rfl
      · exact if_pos (here ▸ file)
    refine stands_taken after receiver place there ?_
    rcases goes with ⟨http, complete, same⟩ | same
    · subst complete same
      have spec := read_header_spec _ _ _ ran (clean_of_unread _ _ clean)
      intro found connects
      rw [after_connected receiver _ hdle value found left connects, split]
      exact nextHeader_found _ _ _ (spec.found fun same => by cases same)
    · subst same
      trivial
  · refine other_after stands receiver place hdle value origin left live file own idle ?_
    rcases goes with ⟨http, _, same⟩ | same <;> rw [same]
    · exact if_neg (Ne.symm own)
    · exact if_neg (file_apart _ fd conn _ (here ▸ file) own)

/-- A body is read: with the header it makes the message that `rest` begins with. -/
theorem body_stands (linked : Linked config table state) (next : Fd → Stage R)
    (receiver : R) (fd : Fd) (hdle : HandleId) (http : List Byte) (origin : ConnId)
    (value : SocketHandle) (id : ConnId) (length count : Int) (request : List Byte) (left : Conn)
    (plan : List Nat) (place : Receiver)
    (after : Linked config next ((state.after hdle value id left).at receiver place))
    (stands : Stands config.info state conn rest) (clean : 0 ∉ state.unread id)
    (fits : Fits ⟨value.read_buf, state.unread id, plan⟩ length)
    (was : state.receivers receiver = .parsed fd hdle http origin)
    (accepted : verdict config.info http = some length)
    (live : state.handles hdle = some value) (file : state.files value.fd = some (.conn id))
    (ran : readn_timeout ⟨value.read_buf, state.unread id, plan⟩ length =
      (.ret count request, left))
    (goes : (count = length ∧ place = .submitting fd hdle request origin) ∨
      place = .failing fd hdle) :
    Stands config.info ((state.after hdle value id left).at receiver place) conn rest := by
  have stage : table fd = .held receiver hdle origin := (was ▸ linked.owners receiver :)
  have shared := conn_of_held linked receiver fd hdle origin id value stage live file
  subst shared
  obtain ⟨here, sound, _⟩ := held_value linked receiver fd hdle origin value stage live
  -- The header and this body are the first message of `rest`; another connection keeps all it has.
  by_cases own : conn = origin
  · subst own
    have before : engaged state conn receiver = some (.parsed fd hdle http conn) := by
      unfold engaged
      rw [was]
      exact if_pos rfl
    have opened := stands.engaged receiver _ before value ((connected_iff ..).mpr ⟨live, file⟩)
    have there : engaged ((state.after hdle value conn left).at receiver place) conn receiver =
        some place := by
      unfold engaged
      simp only [State.at, State.after, State.put, Function.update_self]
      rcases goes with ⟨_, same⟩ | same <;> rw [same]
      · exact if_pos rfl
      · exact if_pos (here ▸ file)
    refine stands_taken after receiver place there ?_
    rcases goes with ⟨whole, same⟩ | same
    · subst whole same
      have spec := readn_spec _ _ _ _ fits ran (clean_of_unread _ _ clean)
      intro found connects
      rw [after_connected receiver _ hdle value found left connects]
      exact ⟨http, frame_of_ends _ _ _ _ opened (.submitted accepted (spec.whole request rfl))⟩
    · subst same
      trivial
  · have off : engaged state conn receiver = none := by
      unfold engaged
      rw [was]
      exact if_neg (Ne.symm own)
    refine other_after stands receiver place hdle value origin left live file own off ?_
    rcases goes with ⟨_, same⟩ | same <;> rw [same]
    · exact if_neg (Ne.symm own)
    · exact if_neg (file_apart _ fd conn _ (here ▸ file) own)

omit [DecidableEq R] in
theorem held_connected (linked : Linked config table state) (receiver : R) (fd : Fd)
    (hdle : HandleId) (stage : table fd = .held receiver hdle conn) :
    ∃ value, connected state hdle = some (value, conn) := by
  obtain ⟨value, live, _⟩ := linked.entry fd hdle (by rw [stage]; rfl)
  obtain ⟨_, _, file⟩ := held_value linked receiver fd hdle conn value stage live
  exact ⟨value, (connected_iff ..).mpr ⟨live, file⟩⟩

/-- The thread is done with the message at the front; the buffer is what comes behind it. -/
theorem used_stands (linked : Linked config table state) (next : Fd → Stage R) (after : State R L)
    (receiver : R) (fd : Fd) (hdle : HandleId) (value : SocketHandle) (outcome : Outcome)
    (place : Receiver) (stage : table fd = .held receiver hdle conn)
    (linkedAfter : Linked config next after)
    (receivers : after.receivers = Function.update state.receivers receiver place)
    (same : (after.handles, after.files, after.unread) =
      (state.handles, state.files, state.unread))
    (off : glance state.files conn place = none)
    (connects : connected state hdle = some (value, conn))
    (framed : frame info rest = (outcome, value.read_buf ++ state.unread conn))
    (rearmed : outcome.rearmed = true) :
    ∃ last, Stands info after conn last ∧
      ∀ more, requestsOf info (rest ++ more) =
        requestIn outcome ++ requestsOf info (last ++ more) := by
  simp only [Prod.mk.injEq] at same
  obtain ⟨handles, files, unread⟩ := same
  have connected' : connected after hdle = some (value, conn) := by
    unfold connected at connects ⊢
    rw [handles, files, connects]
  have alone := left_alone linked after fd receiver place (by rw [stage]; rfl)
    (by rw [stage]; rfl) receivers files off
  refine ⟨value.read_buf ++ state.unread conn,
    stands_between linkedAfter hdle value connected' alone (fun _ => by rw [unread]), ?_⟩
  intro more
  have front : requestsOf info (rest ++ more) = _ :=
    requestsOf_more rest (by rw [framed, rearmed]) more
  rw [framed] at front
  exact front

theorem create_stands (linked : Linked config table state) (next : Fd → Stage R) (receiver : R)
    (fd : Fd) (was : state.receivers receiver = .counted fd) (stands : Stands info state conn rest)
    (linkedAfter : Linked config next
      ((create_handle state fd LISTEN_PORT_1).at receiver (.inserted fd))) :
    Stands info ((create_handle state fd LISTEN_PORT_1).at receiver (.inserted fd)) conn rest := by
  obtain ⟨id, stage⟩ := was ▸ linked.owners receiver
  have file : state.files fd = some (.conn id) := by rw [linked.file, stage]; rfl
  rw [linked.created receiver fd was] at linkedAfter ⊢
  by_cases own : conn = id
  · subst own
    have before : engaged state conn receiver = some (.accepted fd) := by
      unfold engaged
      rw [was]
      exact if_pos file
    have split : rest = state.unread conn := stands.engaged receiver _ before
    refine stands_between linkedAfter state.nextHandle ⟨fd, 0, LISTEN_PORT_1, []⟩
      ((connected_iff ..).mpr ⟨Function.update_self .., file⟩) ?_ fun _ => split
    exact left_alone linked _ fd receiver (.inserted fd) (by rw [stage]; rfl)
      (by rw [stage]; rfl) rfl rfl rfl
  · refine stands.kept _ le_rfl rfl (engaged_at _ receiver (.inserted fd) rfl rfl ?_) ?_
    · rw [was]
      exact (if_neg (file_apart _ fd conn _ file own)).symm
    · intro hdle value connects
      obtain ⟨live, there⟩ := (connected_iff _ hdle value conn).mp connects
      simp only [State.at, State.put] at live there
      by_cases new : hdle = state.nextHandle
      · rw [new, Function.update_self, Option.some.injEq] at live
        subst live
        rw [file] at there
        cases there
        exact absurd rfl own
      · rw [Function.update_of_ne new] at live
        exact ⟨value, (connected_iff ..).mpr ⟨live, there⟩, rfl⟩

theorem flag_stands (linked : Linked config table state) (next : Fd → Stage R) (receiver : R)
    (fd : Fd) (hdle : HandleId) (value : SocketHandle)
    (was : state.receivers receiver = .failing fd hdle) (live : state.handles hdle = some value)
    (stands : Stands info state conn rest)
    (linkedAfter : Linked config next
      ((state.put hdle { value with flag := value.flag ||| ERROR_SOCKET }).at receiver
        (.flagged fd hdle))) :
    Stands info ((state.put hdle { value with flag := value.flag ||| ERROR_SOCKET }).at receiver
      (.flagged fd hdle)) conn rest := by
  obtain ⟨id, stage⟩ : ∃ id, table fd = .held receiver hdle id := (was ▸ linked.owners receiver :)
  obtain ⟨here, _, file⟩ := held_value linked receiver fd hdle id value stage live
  by_cases own : conn = id
  · subst own
    refine stands_between linkedAfter hdle { value with flag := value.flag ||| ERROR_SOCKET }
      ((connected_iff ..).mpr ⟨Function.update_self .., file⟩) ?_ ?_
    · exact left_alone linked _ fd receiver (.flagged fd hdle) (by rw [stage]; rfl)
        (by rw [stage]; rfl) rfl rfl rfl
    · intro sound
      rw [failed_flag value] at sound
      cases sound
  · refine stands.kept _ le_rfl rfl (engaged_at _ receiver (.flagged fd hdle) rfl rfl ?_) ?_
    · rw [was]
      exact (if_neg (file_apart _ fd conn _ (here ▸ file) own)).symm
    · refine connected_put _ hdle value _ live ?_ rfl rfl ?_
      · rfl
      · intro connects
        obtain ⟨_, there⟩ := (connected_iff state hdle value conn).mp connects
        rw [file] at there
        cases there
        exact absurd rfl own

theorem accept_stands (linked : Linked config table state) (receiver : R) (fd : Fd)
    (was : state.receivers receiver = .accepting) (free : state.files fd = none)
    (stands : Stands info state conn rest) :
    Stands info { state.at receiver (.accepted fd) with
      files := Function.update state.files fd (some (.conn state.nextConn))
      nextConn := state.nextConn + 1 } conn rest := by
  have unowned : (table fd).owner = none := by
    have file := linked.file fd
    rw [free] at file
    cases stage : table fd <;> rw [stage] at file <;> first | rfl | cases file
  have threads (other : R) (elsewhere : other ≠ receiver) :
      glance (Function.update state.files fd (some (.conn state.nextConn))) conn
        (Function.update state.receivers receiver (.accepted fd) other) =
        engaged state conn other := by
    rw [Function.update_of_ne elsewhere]
    exact glance_files linked fd _ unowned other
  have handles (hdle : HandleId) (value : SocketHandle)
      (live : state.handles hdle = some value)
      (file : Function.update state.files fd (some (.conn state.nextConn)) value.fd =
        some (.conn conn)) : connected state hdle = some (value, conn) := by
    obtain ⟨id, _, there⟩ := linked.connection hdle value live
    have apart : value.fd ≠ fd := by
      intro same
      rw [same, free] at there
      cases there
    rw [Function.update_of_ne apart] at file
    exact (connected_iff ..).mpr ⟨live, file⟩
  by_cases own : conn = state.nextConn
  · have split := stands.fresh (Nat.le_of_eq own.symm)
    -- No thread and no handle has had a connection with this number.
    have unused (other : R) : engaged state conn other = none := by
      cases there : engaged state conn other with
      | none => rfl
      | some place =>
          obtain ⟨old, stage, _⟩ := engaged_owner linked other place there
          exact absurd (linked.freshConn old conn stage) (own ▸ Nat.lt_irrefl _)
    constructor
    case fresh => exact fun _ => split
    case engaged =>
      intro other place here
      unfold engaged at here
      by_cases same : other = receiver
      · subst same
        simp only [State.at, Function.update_self, glance, own, ↓reduceIte,
          Option.some.injEq] at here
        subst here
        exact split
      · simp only [State.at] at here
        rw [threads other same, unused other] at here
        cases here
    case between =>
      intro hdle value connects _ _
      obtain ⟨live, file⟩ := (connected_iff _ hdle value conn).mp connects
      obtain ⟨_, there⟩ := (connected_iff ..).mp (handles hdle value live file)
      obtain ⟨id, stage, mine⟩ := linked.connection hdle value live
      rw [there] at mine
      cases mine
      exact absurd (linked.freshConn value.fd conn stage) (own ▸ Nat.lt_irrefl _)
  · refine stands.kept _ (Nat.le_succ _) rfl ?_ ?_
    · intro other
      by_cases same : other = receiver
      · subst same
        unfold engaged
        simp [State.at, was, glance, Ne.symm own]
      · exact threads other same
    · intro hdle value connects
      obtain ⟨live, file⟩ := (connected_iff _ hdle value conn).mp connects
      exact ⟨value, handles hdle value live file, rfl⟩

omit [DecidableEq R] in
theorem arrive_stands (id : ConnId) (bytes : List Byte) (stands : Stands info state conn rest) :
    Stands info
      { state with unread := Function.update state.unread id (state.unread id ++ bytes) } conn
      (rest ++ if id = conn then bytes else []) := by
  by_cases own : id = conn
  · subst own
    rw [if_pos rfl]
    constructor
    case fresh =>
      intro new
      simp only [Function.update_self]
      rw [stands.fresh new]
    case engaged =>
      intro receiver place here
      have tells := stands.engaged receiver place here
      -- What arrives is behind the message that is under way, so it changes nothing of that.
      cases place with
      | accepted fd =>
          simp only [Tells, Function.update_self] at tells ⊢
          rw [tells]
      | parsed fd hdle http origin =>
          intro value connects
          simp only [Function.update_self]
          rw [← List.append_assoc]
          exact (nextHeader_more _ _ _ (tells value connects)).2 bytes
      | submitting fd hdle request origin =>
          intro value connects
          simp only [Function.update_self]
          obtain ⟨http, framed⟩ := tells value connects
          have more : frame info (rest ++ bytes) = _ :=
            frame_more rest (by rw [framed]; rfl) bytes
          rw [framed] at more
          rw [← List.append_assoc]
          exact ⟨http, more⟩
      | _ => trivial
    case between =>
      intro hdle value connects sound alone
      simp only [Function.update_self]
      rw [← List.append_assoc, ← stands.between hdle value connects sound alone]
  · rw [if_neg own, List.append_nil]
    exact stands.kept _ le_rfl (Function.update_of_ne (Ne.symm own) ..) (fun _ => rfl)
      fun hdle value connects => ⟨value, connects, rfl⟩

end Own

end Stands

/-! The history of a run. -/

def arrived {R L : Type} (conn : ConnId) : Action R L → List Byte
  | .arrive id bytes => if id = conn then bytes else []
  | _ => []

def submitted {R L : Type} (state : State R L) (conn : ConnId) :
    Action R L → List (WorkerId × List Byte)
  | .submit receiver =>
      match state.receivers receiver with
      | .submitting _ _ request id => if id = conn then [(state.nextWorker, request)] else []
      | _ => []
  | _ => []

structure History where
  stream : ConnId → List Byte
  workers : ConnId → List (WorkerId × List Byte)

section Runs
variable {R L : Type} [DecidableEq R] [Fintype R] [DecidableEq L]

def History.next (history : History) (state : State R L) (action : Action R L) : History where
  stream conn := history.stream conn ++ arrived conn action
  workers conn := history.workers conn ++ submitted state conn action

def step (config : Config) (run : State R L × History) (action : Action R L) :
    Option (State R L × History) :=
  (Server.step config run.1 action).map fun after => (after, run.2.next run.1 action)

/-- No zero byte arrives, which `+=` would cut the buffer at, and where a body is read the `int`
that `readn_timeout` computes is the difference of the two lengths. -/
def plain (config : Config) (state : State R L) : Action R L → Bool
  | .arrive _ bytes => decide (0 ∉ bytes)
  | .readBody receiver _ =>
      match state.receivers receiver with
      | .parsed _ hdle http _ =>
          match verdict config.info http, state.handles hdle with
          | some length, some value =>
              decide (-2 ^ 31 ≤ length - value.read_buf.length ∧ length < 2 ^ 31)
          | _, _ => true
      | _ => true
  | _ => true

section Step
variable {config : Config} {table : Fd → Stage R} {state : State R L} {conn : ConnId}
  {rest : List Byte}

def Follows (config : Config) (state after : State R L) (action : Action R L) (conn : ConnId)
    (rest : List Byte) : Prop :=
  ∃ last, Stands config.info after conn last ∧
    ∀ more, requestsOf config.info (rest ++ arrived conn action ++ more) =
      (submitted state conn action).map Prod.snd ++ requestsOf config.info (last ++ more)

omit [DecidableEq R] [Fintype R] [DecidableEq L] in
/-- A step that neither brings bytes nor submits a worker. -/
theorem quiet_follows (action : Action R L) (after : State R L)
    (quiet : arrived conn action = []) (idle : submitted state conn action = [])
    (there : Stands config.info after conn rest) :
    Follows config state after action conn rest :=
  ⟨rest, there, fun more => by rw [quiet, idle, List.append_nil]; rfl⟩

omit [Fintype R] [DecidableEq L] in
/-- A thread moves between places at which it is not at work on the connection. -/
theorem thread_follows (stands : Stands config.info state conn rest) (action : Action R L)
    (after : State R L) (acting : R) (old place : Receiver)
    (here : state.receivers acting = old) (quiet : arrived conn action = [])
    (idle : submitted state conn action = [])
    (receivers : after.receivers = Function.update state.receivers acting place)
    (tables : (after.handles, after.files, after.unread, after.nextConn) =
      (state.handles, state.files, state.unread, state.nextConn))
    (glances : glance state.files conn place = glance state.files conn old) :
    Follows config state after action conn rest := by
  simp only [Prod.mk.injEq] at tables
  obtain ⟨handles, files, unread, nextConn⟩ := tables
  refine quiet_follows action after quiet idle (stands.kept after (Nat.le_of_eq nextConn.symm)
    (by rw [unread]) (engaged_at after acting place receivers files (by rw [glances, here])) ?_)
  intro hdle value connects
  unfold connected at connects
  rw [handles, files] at connects
  exact ⟨value, connects, rfl⟩

omit [Fintype R] [DecidableEq L] in
/-- A message that is rejected is taken off the stream and submits nothing. -/
theorem rejected_follows (linked : Linked config table state) (next : Fd → Stage R)
    (stands : Stands config.info state conn rest) (receiver : R) (plan : List Nat) (fd : Fd)
    (hdle : HandleId) (http : List Byte) (origin : ConnId)
    (place : state.receivers receiver = .parsed fd hdle http origin)
    (rejected : verdict config.info http = none)
    (linkedAfter : Linked config next (state.at receiver (.rejecting fd hdle))) :
    Follows config state (state.at receiver (.rejecting fd hdle))
      (.readBody receiver plan : Action R L) conn rest := by
  have stage : table fd = .held receiver hdle origin := (place ▸ linked.owners receiver :)
  by_cases own : conn = origin
  · subst own
    obtain ⟨value, connects⟩ := held_connected linked receiver fd hdle stage
    have before : engaged state conn receiver = some (.parsed fd hdle http conn) := by
      unfold engaged
      rw [place]
      exact if_pos rfl
    have framed := frame_of_ends _ _ _ _ (stands.engaged receiver _ before value connects)
      (.invalid rejected)
    obtain ⟨last, there, split⟩ := used_stands linked next _ receiver fd hdle value _
      (.rejecting fd hdle) stage linkedAfter rfl rfl rfl connects framed rfl
    exact ⟨last, there, fun more => by simpa [arrived, submitted, requestIn] using split more⟩
  · refine thread_follows stands _ _ _ _ (.rejecting fd hdle) place rfl rfl rfl rfl ?_
    exact (if_neg (Ne.symm own)).symm

omit [Fintype R] [DecidableEq L] in
/-- A request that is submitted is taken off the stream, also where the list is flushed. -/
theorem submit_follows (linked : Linked config table state) (next : Fd → Stage R)
    (stands : Stands config.info state conn rest) (after : State R L) (receiver : R) (fd : Fd)
    (hdle : HandleId) (request : List Byte) (origin : ConnId)
    (place : state.receivers receiver = .submitting fd hdle request origin)
    (receivers : after.receivers = Function.update state.receivers receiver (.submitted fd))
    (tables : (after.handles, after.files, after.unread, after.nextConn) =
      (state.handles, state.files, state.unread, state.nextConn))
    (linkedAfter : Linked config next after) :
    Follows config state after (.submit receiver) conn rest := by
  have stage : table fd = .held receiver hdle origin := (place ▸ linked.owners receiver :)
  have same : (after.handles, after.files, after.unread) =
      (state.handles, state.files, state.unread) := by
    simp only [Prod.mk.injEq] at tables ⊢
    exact ⟨tables.1, tables.2.1, tables.2.2.1⟩
  by_cases own : conn = origin
  · subst own
    obtain ⟨value, connects⟩ := held_connected linked receiver fd hdle stage
    have before : engaged state conn receiver = some (.submitting fd hdle request conn) := by
      unfold engaged
      rw [place]
      exact if_pos rfl
    obtain ⟨http, framed⟩ := stands.engaged receiver _ before value connects
    obtain ⟨last, there, split⟩ := used_stands linked next after receiver fd hdle value _
      (.submitted fd) stage linkedAfter receivers same rfl connects framed rfl
    exact ⟨last, there, fun more => by
      simpa [arrived, submitted, place, requestIn] using split more⟩
  · refine thread_follows stands _ after _ _ (.submitted fd) place rfl ?_ receivers tables ?_
    · simp [submitted, place, Ne.symm own]
    · exact (if_neg (Ne.symm own)).symm

omit [Fintype R] in
theorem moved_stands (linked : Linked config table state) (clean : ∀ id, 0 ∉ state.unread id)
    (action : Action R L) (after : State R L) (fits : plain config state action = true)
    (moved : Moved config state action after) (stands : Stands config.info state conn rest) :
    Follows config state after action conn rest := by
  obtain ⟨next, linkedAfter, _⟩ := moved_refines linked action after moved
  cases moved with
  | exit place | lock place | waitListen place | waitPipe place | waitClient place
  | acceptNone place | count place =>
      exact thread_follows stands _ _ _ _ _ place rfl rfl rfl rfl rfl
  | waitFailed next ends place =>
      refine thread_follows stands _ _ _ _ next place rfl rfl rfl rfl ?_
      rcases ends with same | same <;> rw [same] <;> rfl
  | add place =>
      refine thread_follows stands _ _ _ _ .accepting place rfl rfl ?_ ?_ rfl <;>
        rw [add_input_fd_eq] <;> rfl
  | rearmSubmitted place | rearmRejected place =>
      refine thread_follows stands _ _ _ _ .idle place rfl rfl ?_ ?_ rfl <;>
        rw [add_input_fd_eq] <;> rfl
  | acceptSome place free =>
      exact quiet_follows _ _ rfl rfl (accept_stands linked _ _ place free stands)
  | create place =>
      exact quiet_follows _ _ rfl rfl (create_stands linked next _ _ place stands linkedAfter)
  | @acquire receiver fd hdle value place found live =>
      refine quiet_follows _ _ rfl rfl (stands.kept _ le_rfl rfl
        (engaged_at _ receiver (.receiving fd hdle) rfl rfl (by rw [place]; rfl)) ?_)
      exact connected_put _ hdle value { value with ref := value.ref + 1 } live rfl rfl rfl
        fun _ => rfl
  | headerComplete place live file ran =>
      exact quiet_follows _ _ rfl rfl (header_stands linked next _ _ _ _ _ _ _ _ _ linkedAfter
        stands (clean _) place live file ran (Or.inl ⟨_, rfl, rfl⟩))
  | headerError place live file ran =>
      exact quiet_follows _ _ rfl rfl (header_stands linked next _ _ _ _ _ _ _ _ _ linkedAfter
        stands (clean _) place live file ran (Or.inr rfl))
  | bodyComplete place accepted live file ran =>
      simp only [plain, place, accepted, live, decide_eq_true_eq] at fits
      exact quiet_follows _ _ rfl rfl (body_stands linked next _ _ _ _ _ _ _ _ _ _ _ _ _ linkedAfter
        stands (clean _) fits place accepted live file ran (Or.inl ⟨rfl, rfl⟩))
  | bodyShort place accepted live file ran short =>
      simp only [plain, place, accepted, live, decide_eq_true_eq] at fits
      exact quiet_follows _ _ rfl rfl (body_stands linked next _ _ _ _ _ _ _ _ _ _ _ _ _ linkedAfter
        stands (clean _) fits place accepted live file ran (Or.inr rfl))
  | bodyRejected place rejected =>
      exact rejected_follows linked next stands _ _ _ _ _ _ place rejected linkedAfter
  | submit place | submitFlushed place =>
      exact submit_follows linked next stands _ _ _ _ _ _ place rfl rfl linkedAfter
  | flag place live =>
      exact quiet_follows _ _ rfl rfl
        (flag_stands linked next _ _ _ _ place live stands linkedAfter)
  | @drop receiver fd hdle value middle place live released =>
      refine quiet_follows _ _ rfl rfl
        (released_stands linked stands hdle value middle _ live released rfl ?_)
      intro other
      unfold engaged
      by_cases here : other = receiver
      · subst here
        simp only [State.at, Function.update_self, place]
        rfl
      · simp only [State.at, Function.update_of_ne here]
        cases released <;> rfl
  | get | getNull | send | stop | flush =>
      exact quiet_follows _ _ rfl rfl (stands.kept _ le_rfl rfl (fun _ => rfl)
        fun hdle value connects => ⟨value, connects, rfl⟩)
  | @release loader worker value middle place live released =>
      refine quiet_follows _ _ rfl rfl
        (released_stands linked stands worker.handle value middle _ live released rfl ?_)
      intro other
      cases released <;> rfl
  | @arrive id bytes => exact ⟨_, arrive_stands id bytes stands, fun _ => rfl⟩

omit [Fintype R] in
theorem moved_clean (clean : ∀ id, 0 ∉ state.unread id) (action : Action R L)
    (after : State R L) (fits : plain config state action = true)
    (moved : Moved config state action after) (id : ConnId) : 0 ∉ after.unread id := by
  -- A read loop leaves a suffix of what was unread.
  have read (conn : ConnId) (left : List Byte)
      (suffix : ∃ taken, state.unread conn = taken ++ left) :
      0 ∉ Function.update state.unread conn left id := by
    by_cases here : id = conn
    · rw [here, Function.update_self]
      obtain ⟨taken, split⟩ := suffix
      have whole := clean conn
      rw [split] at whole
      exact fun zero => whole (List.mem_append_right _ zero)
    · rw [Function.update_of_ne here]
      exact clean id
  cases moved with
  | @headerComplete _ plan _ _ value conn _ _ _ _ _ ran
  | @headerError _ plan _ _ value conn _ _ _ _ ran =>
      have suffix := read_header_unread ⟨value.read_buf, state.unread conn, plan⟩
      rw [ran] at suffix
      exact read _ _ suffix
  | @bodyComplete _ plan _ _ _ _ value conn length _ _ _ _ _ _ ran
  | @bodyShort _ plan _ _ _ _ value conn length _ _ _ _ _ _ _ ran =>
      have suffix := readn_unread ⟨value.read_buf, state.unread conn, plan⟩ length
      rw [ran] at suffix
      exact read _ _ suffix
  | create =>
      rw [create_handle_eq]
      exact clean id
  | add | rearmSubmitted | rearmRejected =>
      rw [add_input_fd_eq]
      exact clean id
  | drop place live released | release place live released =>
      cases released <;> exact clean id
  | @arrive conn bytes =>
      by_cases here : id = conn
      · subst here
        simp only [Function.update_self, List.mem_append, not_or]
        exact ⟨clean id, of_decide_eq_true fits⟩
      · simp only [Function.update_of_ne here]
        exact clean id
  | _ => exact clean id

omit [Fintype R] in
/-- The list takes every worker that is submitted, as it is flushed only when all receivers have
ended. -/
theorem moved_received (drained : Drained state) (action : Action R L) (after : State R L)
    (moved : Moved config state action after) (conn : ConnId) :
    after.received conn = state.received conn ++ (submitted state conn action).map Prod.fst := by
  have same (received : after.received conn = state.received conn)
      (idle : submitted state conn action = []) :
      after.received conn = state.received conn ++ (submitted state conn action).map Prod.fst := by
    rw [received, idle, List.map_nil, List.append_nil]
  cases moved with
  | @submit receiver fd hdle request id place alive =>
      by_cases here : conn = id
      · subst here
        simp [submitted, place]
      · refine same (Function.update_of_ne here ..) ?_
        simp [submitted, place, Ne.symm here]
  | @submitFlushed receiver fd hdle request id place flushed =>
      rw [drained flushed receiver] at place
      cases place
  | create =>
      refine same ?_ rfl
      rw [create_handle_eq]
      rfl
  | add | rearmSubmitted | rearmRejected =>
      refine same ?_ rfl
      rw [add_input_fd_eq]
      rfl
  | drop place live released | release place live released =>
      refine same ?_ rfl
      cases released <;> rfl
  | _ => exact same rfl rfl

end Step

def start (config : Config) (R L : Type) : State R L × History :=
  (State.initial config R L, ⟨fun _ => [], fun _ => []⟩)

abbrev Running (config : Config) : State R L × History → Prop :=
  Transition.ReachableWhile (step config) (· = start config R L)
    fun run action => plain config run.1 action = true

variable {config : Config}

theorem running_server (run : State R L × History) (reached : Running config run) :
    Ownership.Running config run.1 := by
  induction reached with
  | start begins =>
      subst begins
      exact .start rfl
  | next action _ _ moved ih =>
      obtain ⟨after, ran, same⟩ := Option.map_eq_some_iff.mp moved
      subst same
      exact .next action ih trivial ran

structure Followed (config : Config) (run : State R L × History) : Prop where
  clean : ∀ conn, 0 ∉ run.1.unread conn
  stands : ∀ conn, ∃ rest, Stands config.info run.1 conn rest ∧
    ∀ more, requestsOf config.info (run.2.stream conn ++ more) =
      (run.2.workers conn).map Prod.snd ++ requestsOf config.info (rest ++ more)
  numbered : ∀ conn, (run.2.workers conn).map Prod.fst = run.1.received conn

theorem plain_run (actions : List (Action R L)) (shown : State R L × History → Bool)
    (ran : (Transition.execWhile (step config) (fun run action => plain config run.1 action)
      (start config R L) actions).any shown = true) :
    ∃ run, Running config run ∧ shown run = true :=
  Transition.execWhile_reaches (fun run action => plain config run.1 action)
    (fun _ _ _ fits => fits) (.start rfl : Running config (start config R L)) actions shown ran

variable [Fintype L]

theorem running_followed (run : State R L × History) (reached : Running config run) :
    Followed config run := by
  refine reached.invariant (Followed config) ?_ ?_
  · intro run start
    subst start
    refine ⟨fun _ => List.not_mem_nil, fun conn => ⟨[], ?_, fun _ => rfl⟩, fun _ => rfl⟩
    exact ⟨fun _ => rfl, (fun _ _ same => by cases same), fun _ _ same => by cases same⟩
  · rintro ⟨state, history⟩ action _ earlier fits followed stepped
    obtain ⟨after, ran, same⟩ := Option.map_eq_some_iff.mp stepped
    subst same
    have server := running_server _ earlier
    have moved := step_moved config state after action ran
    obtain ⟨table, linked⟩ := reachable_linked state server
    constructor
    case clean => exact moved_clean followed.clean action after fits moved
    case stands =>
      intro conn
      obtain ⟨rest, stands, split⟩ := followed.stands conn
      obtain ⟨last, there, uses⟩ :=
        moved_stands linked followed.clean action after fits moved stands
      refine ⟨last, there, ?_⟩
      intro more
      simp only [History.next, List.map_append, List.append_assoc] at split uses ⊢
      rw [split, uses]
    case numbered =>
      intro conn
      have received := moved_received (reachable_tracked state server).drained action after moved
      simp only [History.next, List.map_append]
      rw [received conn, followed.numbered conn]

/-- What has been submitted for a connection is a front of the requests on its stream, under the
numbers in `received`; while epoll watches it the others are in its buffer and the kernel. -/
structure Kept (config : Config) (run : State R L × History) (conn : ConnId) : Prop where
  front : (run.2.workers conn).map Prod.snd <+: requestsOf config.info (run.2.stream conn)
  numbered : (run.2.workers conn).map Prod.fst = run.1.received conn
  rest : ∀ fd hdle value, run.1.files fd = some (.conn conn) → run.1.interest fd = true →
    run.1.m_fd_set.lookup fd = some hdle → run.1.handles hdle = some value →
    requestsOf config.info (run.2.stream conn) = (run.2.workers conn).map Prod.snd ++
      requestsOf config.info (value.read_buf ++ run.1.unread conn)

/-- Every interleaving hands out the requests that framing finds on a connection's bytes, in order
and each once. -/
theorem requests_framed (run : State R L × History) (reached : Running config run)
    (conn : ConnId) : Kept config run conn := by
  have followed := running_followed run reached
  obtain ⟨table, linked⟩ := reachable_linked run.1 (running_server run reached)
  obtain ⟨rest, stands, split⟩ := followed.stands conn
  have whole := split []
  rw [List.append_nil, List.append_nil] at whole
  refine ⟨⟨_, whole.symm⟩, followed.numbered conn, ?_⟩
  intro fd hdle value file armed entry live
  rw [whole, watched_rest linked stands fd hdle value file armed entry live]

/-- A server that waits has answered every request on the connections it watches, up to those
that an earlier read has brought into the buffer. -/
theorem requests_answered (run : State R L × History) (reached : Running config run)
    (waiting : Waiting run.1) (fd : Fd) (conn : ConnId) (hdle : HandleId) (value : SocketHandle)
    (file : run.1.files fd = some (.conn conn)) (armed : run.1.interest fd = true)
    (entry : run.1.m_fd_set.lookup fd = some hdle) (live : run.1.handles hdle = some value) :
    requestsOf config.info (run.2.stream conn) =
        (run.2.workers conn).map Prod.snd ++ requestsOf config.info value.read_buf ∧
      (run.1.answered conn).Perm ((run.2.workers conn).map Prod.fst) := by
  have followed := running_followed run reached
  have server := running_server run reached
  obtain ⟨table, linked⟩ := reachable_linked run.1 server
  obtain ⟨rest, stands, split⟩ := followed.stands conn
  have whole := split []
  rw [List.append_nil, List.append_nil,
    watched_rest linked stands fd hdle value file armed entry live] at whole
  obtain ⟨_, poller, polls, _⟩ := waiting.polling
  have drained : run.1.unread conn = [] :=
    (rest_polling run.1 server (waiting_rests run.1 server waiting) poller polls).2.2 fd conn
      file armed
  rw [drained, List.append_nil] at whole
  refine ⟨whole, ?_⟩
  rw [followed.numbered conn]
  exact waiting.answered conn

end Runs

/-- The first receiver reads a request of which the last byte comes with the header of the next,
and the second reads the next; both are answered. -/
def interleaved {R L : Type} (first second : R) (loader : L) : List (Server.Action R L) :=
  connect first 5 ++
    .arrive 0 (text "POST /request HTTP/1.1\r\nContent-Length:2\r\n\r\na") ::
    event first 5 ++ [.acquire first, .readHeader first [512],
      .arrive 0 (text "bPOST /request HTTP/1.1\r\nContent-Length:1\r\n\r\n"),
      .readBody first [512], .submit first, .rearm first] ++
    event second 5 ++ [.acquire second, .readHeader second [512], .arrive 0 (text "c"),
      .get loader, .readBody second [512], .submit second, .rearm second,
      .send loader [] [.wrote 1024] [.wrote 1024], .release loader, .get loader,
      .send loader [] [.wrote 1024] [.wrote 1024], .release loader, .lock first]

structure Served (run : State (Fin 2) (Fin 1) × History) : Prop where
  workers : run.2.workers 0 = [(0, text "ab"), (1, text "c")]
  running : run.1.stop_task = false ∧ run.1.alive = true ∧ run.1.ready_event_num = 0
  receivers : run.1.receivers 0 = .locked ∧ run.1.receivers 1 = .idle
  loaders : run.1.task_list = [] ∧ run.1.loaders 0 = .waiting
  conn : run.1.nextConn = 1 ∧ run.1.unread 0 = []
  file : run.1.files 5 = some (.conn 0) ∧ run.1.interest 5 = true ∧
    run.1.m_fd_set.lookup 5 = some 0
  handle : (run.1.handles 0).map SocketHandle.read_buf = some []

theorem served_run : ∃ run : State (Fin 2) (Fin 1) × History, Running sample run ∧ Served run := by
  obtain ⟨run, reached, shown⟩ := plain_run (interleaved 0 1 0)
    (fun run : State (Fin 2) (Fin 1) × History => decide
      (run.2.workers 0 = [(0, text "ab"), (1, text "c")] ∧
      (run.1.stop_task = false ∧ run.1.alive = true ∧ run.1.ready_event_num = 0) ∧
      (run.1.receivers 0 = .locked ∧ run.1.receivers 1 = .idle) ∧
      (run.1.task_list = [] ∧ run.1.loaders 0 = .waiting) ∧
      (run.1.nextConn = 1 ∧ run.1.unread 0 = []) ∧
      (run.1.files 5 = some (.conn 0) ∧ run.1.interest 5 = true ∧
        run.1.m_fd_set.lookup 5 = some 0) ∧
      (run.1.handles 0).map SocketHandle.read_buf = some []))
    (by decide +kernel : (Transition.execWhile (step sample) _ _ _).any _ = true)
  obtain ⟨workers, running, receivers, loaders, conn, file, handle⟩ := of_decide_eq_true shown
  exact ⟨run, reached, ⟨workers, running, receivers, loaders, conn, file, handle⟩⟩

theorem requests_framed_interleaved : ∃ run : State (Fin 2) (Fin 1) × History,
    run.2.workers 0 = [(0, text "ab"), (1, text "c")] ∧ Kept sample run 0 := by
  obtain ⟨run, reached, served⟩ := served_run
  exact ⟨run, served.workers, requests_framed run reached 0⟩

theorem served_waiting (run : State (Fin 2) (Fin 1) × History) (reached : Running sample run)
    (served : Served run) : Waiting run.1 := by
  have server := running_server run reached
  obtain ⟨table, linked⟩ := reachable_linked run.1 server
  obtain ⟨open', alive, batch⟩ := served.running
  obtain ⟨polls, idle⟩ := served.receivers
  obtain ⟨tasks, loader⟩ := served.loaders
  refine quiet_waiting run.1 server open' alive batch.le ?_ ?_ 0 polls tasks ?_
  · intro fd conn file _
    rw [linked.file fd] at file
    have stage : (table fd).conn = some conn := by
      cases found : table fd <;> rw [found] at file <;> cases file <;> rfl
    have below := linked.freshConn fd conn stage
    rw [served.conn.1, Nat.lt_one_iff] at below
    rw [below, served.conn.2]
  · intro receiver
    rcases (by decide : ∀ receiver : Fin 2, receiver = 0 ∨ receiver = 1) receiver with here | here
    · exact Or.inr (Or.inl (here ▸ polls))
    · exact Or.inl (here ▸ idle)
  · intro loader'
    rw [Subsingleton.elim loader' 0, loader]

theorem requests_answered_interleaved : ∃ run : State (Fin 2) (Fin 1) × History,
    run.2.workers 0 = [(0, text "ab"), (1, text "c")] ∧
      requestsOf sample.info (run.2.stream 0) =
        (run.2.workers 0).map Prod.snd ++ requestsOf sample.info [] ∧
      (run.1.answered 0).Perm ((run.2.workers 0).map Prod.fst) := by
  obtain ⟨run, reached, served⟩ := served_run
  obtain ⟨file, armed, entry⟩ := served.file
  obtain ⟨value, live, empty⟩ := Option.map_eq_some_iff.mp served.handle
  have answered := requests_answered run reached (served_waiting run reached served) 5 0 0 value
    file armed entry live
  rw [empty] at answered
  exact ⟨run, served.workers, answered⟩

end AsrServer.RequestStream
