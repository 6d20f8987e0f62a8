import AsrServer.MessageStream

/-!
When the message boundaries of a stream survive. An accepted message is taken
off the stream whole, header and body; a rejected one loses only its header, and
its body is what the next call looks for a header in. So the boundaries survive
a rejected message exactly when there is no body behind its header, or nothing
is ever found in it.
-/

namespace AsrServer.MessageBoundaries

open Bytes RequestHeader ReadPath Framing ReadBounds MessageStream

/-- A header parsed by the call is that of a message, at its place in the stream. -/
def Aligned (messages : List Message) (call : Call) : Prop :=
  ∀ found ∈ opened call.before, ∃ front message back,
    messages = front ++ message :: back ∧
      call.start (stream messages) = (stream front).length ∧ found.1 = message.header

/-- The workers are the accepted bodies in stream order, and no header is parsed
anywhere but where a message begins. -/
def BoundariesKept (info : List Byte → Option Int) (messages : List Message)
    (calls : List Call) : Prop :=
  submittedRequests calls = acceptedBodies info messages ∧
    ∀ call ∈ calls, Aligned messages call

/-- What a message has to be for the one behind it to be found. -/
def Passable (info : List Byte → Option Int) (message : Message) (back : List Message) : Prop :=
  match verdict info message.header with
  | some length => length = message.body.length
  | none => message.body = [] ∨ (back = [] ∧ find message.body crlfcrlf = none)

section Calls
variable (info : List Byte → Option Int)

theorem begins_aligned (messages : List Message) (call : Call)
    (begins : BeginsAt messages call) : Aligned messages call := by
  obtain ⟨front, message, back, mid, split, pending, parsed⟩ := begins
  intro found member
  rw [parsed] at member
  cases member
  refine ⟨front, message, back, split, ?_, rfl⟩
  rw [Call.start, pending, split]
  simp [stream, List.flatMap_append]

theorem missing_run (count : Nat) (conn : Conn) (clean : 0 ∉ conn.unread)
    (missing : conn.pending.dropInfix? crlfcrlf = none) :
    submittedRequests (calls info count conn) = [] ∧
      ∀ messages, ∀ call ∈ calls info count conn, Aligned messages call := by
  obtain ⟨closed, ended⟩ := missing_call info conn clean missing
  cases count with
  | zero => exact ⟨rfl, by simp [calls]⟩
  | succ count =>
      have one : calls info (count + 1) conn =
          [⟨conn, (recv_request info conn).1, (recv_request info conn).2⟩] := by
        simp [calls, ended, Outcome.rearmed]
      rw [one]
      refine ⟨by simp [submittedRequests, ended], ?_⟩
      intro messages call member found parsed
      rw [List.mem_singleton.mp member, closed] at parsed
      cases parsed

theorem nothing_missing : ([] : List Byte).dropInfix? crlfcrlf = none := by decide

theorem passable_last (message : Message) (passable : Passable info message []) :
    (∀ length, verdict info message.header = some length → length = message.body.length) ∧
      (afterMessage info message []).1.rearmed = true ∧
      (afterMessage info message []).2.dropInfix? crlfcrlf = none := by
  unfold Passable at passable
  unfold afterMessage
  cases accepted : verdict info message.header with
  | some length =>
      simp only [accepted] at passable
      exact ⟨fun other same => (by cases same; exact passable), by simp [Outcome.rearmed],
        nothing_missing⟩
  | none =>
      simp only [accepted] at passable
      refine ⟨fun other same => (by cases same), by simp [Outcome.rearmed], ?_⟩
      rcases passable with empty | ⟨_, absent⟩
      · rw [empty]
        exact nothing_missing
      · simp only [stream, List.flatMap_nil, List.append_nil]
        cases found : message.body.dropInfix? crlfcrlf with
        | none => simpa using found
        | some parts => simp [find, found] at absent

theorem passable_passed (message next : Message) (back : List Message)
    (passable : Passable info message (next :: back)) : Passed info message := by
  unfold Passable at passable
  unfold Passed
  cases accepted : verdict info message.header with
  | some length => simpa only [accepted] using passable
  | none => simpa [accepted] using passable

theorem passable_run (ints : ∀ header length, info header = some length → length < 2 ^ 31)
    (messages : List Message) (conn : Conn) (count : Nat)
    (here : AtBoundary messages conn) (enough : messages.length < count)
    (short : ∀ message ∈ messages, message.header.length + 4 < 2 ^ 31)
    (passable : ∀ front message back, messages = front ++ message :: back →
      Passable info message back) :
    BoundariesKept info messages (calls info count conn) := by
  rcases List.eq_nil_or_concat messages with empty | ⟨front, message, split⟩
  · subst empty
    obtain ⟨nothing, aligned⟩ := missing_run info count conn here.clean
      (by rw [here.pending]; exact nothing_missing)
    exact ⟨by rw [nothing]; rfl, aligned []⟩
  · rw [List.concat_eq_append] at split
    subst split
    have passed : ∀ other ∈ front, Passed info other := by
      intro other member
      obtain ⟨left, right, within⟩ := List.append_of_mem member
      cases right with
      | nil =>
          refine passable_passed info other message [] (passable left other [message] ?_)
          rw [within, List.append_assoc, List.singleton_append]
      | cons next right =>
          refine passable_passed info other next (right ++ [message])
            (passable left other _ ?_)
          rw [within, List.append_assoc, List.cons_append, List.cons_append]
    -- All but the last message are passed; the last call may leave a body without terminator.
    obtain ⟨early, last, run, there, requests, begins⟩ := passed_run info ints front [message]
      conn (count - front.length) here (fun other member => short other (by simp [member])) passed
    simp only [List.length_append, List.length_singleton] at enough
    obtain ⟨more, rest⟩ : ∃ more, count - front.length = more + 1 :=
      ⟨count - front.length - 1, by omega⟩
    rw [Nat.add_sub_of_le (by omega), rest] at run
    obtain ⟨agrees, rearmed, missing⟩ := passable_last info message (passable front message [] rfl)
    have call := boundary_call info ints message [] last there (short message (by simp)) agrees
    have first := submitted_after info message []
    rw [← call.shown] at rearmed missing first
    obtain ⟨nothing, aligned⟩ := missing_run info more (recv_request info last).2 call.clean missing
    have unrolled : calls info (more + 1) last =
        [⟨last, (recv_request info last).1, (recv_request info last).2⟩] ++
          calls info more (recv_request info last).2 := by
      dsimp only at rearmed
      simp only [calls, rearmed, ↓reduceIte, List.singleton_append]
    have one : submittedRequests
        [⟨last, (recv_request info last).1, (recv_request info last).2⟩] =
        acceptedBodies info [message] := by
      rw [← first]
      unfold submittedRequests
      cases (recv_request info last).1 <;> rfl
    rw [run, unrolled]
    constructor
    · rw [submitted_append, submitted_append, requests, nothing, one, accepted_append,
        List.append_nil]
    · intro other member
      simp only [List.mem_append, List.mem_singleton] at member
      rcases member with early | same | later
      · exact begins_aligned _ other (begins other early)
      · subst same
        obtain ⟨mid, parsed⟩ := call.opened
        exact begins_aligned _ _ ⟨front, message, [], mid, rfl, there.pending, parsed⟩
      · exact aligned _ other later

/-! The other way round: a message that cannot be passed breaks the boundaries
of any stream it stands in. -/

theorem passable_cons (first : Message) (rest : List Message)
    (passable : Passable info first rest)
    (all : ∀ front message back, rest = front ++ message :: back → Passable info message back) :
    ∀ front message back, first :: rest = front ++ message :: back →
      Passable info message back := by
  intro front message back split
  cases front with
  | nil =>
      cases split
      exact passable
  | cons _ front =>
      cases split
      exact all front message back rfl

theorem first_unpassable (messages : List Message)
    (broken : ¬ ∀ front message back, messages = front ++ message :: back →
      Passable info message back) :
    ∃ front message back, messages = front ++ message :: back ∧
      (∀ other ∈ front, Passed info other) ∧ ¬ Passable info message back := by
  induction messages with
  | nil =>
      exact absurd (fun front message back split => by simp at split) broken
  | cons first rest ih =>
      by_cases passable : Passable info first rest
      · have later : ¬ ∀ front message back, rest = front ++ message :: back →
            Passable info message back :=
          fun all => broken (passable_cons info first rest passable all)
        obtain ⟨front, message, back, split, passed, fails⟩ := ih later
        refine ⟨first :: front, message, back, by rw [split, List.cons_append], ?_, fails⟩
        intro other member
        rcases List.mem_cons.mp member with same | inside
        · subst same
          obtain ⟨next, more, shape⟩ : ∃ next more, rest = next :: more := by
            cases rest with
            | nil => simp at split
            | cons next more => exact ⟨next, more, rfl⟩
          exact passable_passed info other next more (shape ▸ passable)
        · exact passed other inside
      · exact ⟨[], first, rest, rfl, by simp, passable⟩

/-- No message begins strictly inside another. -/
theorem begins_apart (front back front' back' : List Message) (message message' : Message)
    (split : front ++ message :: back = front' ++ message' :: back') :
    (stream front').length ≤ (stream front).length ∨
      (stream front).length + message.bytes.length ≤ (stream front').length := by
  rcases List.append_eq_append_iff.mp split with ⟨more, shape, _⟩ | ⟨more, shape, _⟩
  · cases more with
    | nil => simp [shape]
    | cons first more =>
        rename_i rest
        cases rest
        right
        rw [shape, stream_append, stream_cons]
        simp only [List.length_append]
        omega
  · left
    rw [shape, stream_append]
    simp

theorem opened_present (conn : Conn) (head tail : List Byte) (clean : 0 ∉ conn.unread)
    (flowing : conn.Flowing) (small : conn.pending.length < 2 ^ 31)
    (found : conn.pending.dropInfix? crlfcrlf = some (head, tail)) :
    ∃ parsed, parsed ∈ opened conn := by
  cases header : read_http_header_timeout conn with
  | mk result mid =>
      have spec := read_header_spec conn mid result header (clean_of_unread _ _ clean)
      have lengths := congrArg List.length (Occurrence.split_text _ _ _ _ found)
      simp only [List.length_append, crlfcrlf_length] at lengths
      have cut := cut_found conn.pending head tail found
      rw [toInt_eq _ (by omega) (by omega), if_pos (by omega), toInt_eq _ (by omega) (by omega),
        if_neg (by omega)] at cut
      have present : result ≠ .error := by
        intro failed
        rw [spec.drained flowing failed] at cut
        cases cut
      rw [spec.found present] at cut
      simp only [Option.some.injEq, Prod.mk.injEq] at cut
      obtain ⟨complete, _⟩ := cut
      exact ⟨((conn.pending.take (head.length : Int).toNat), mid), by
        simp [opened, header, complete]⟩

/-- A stored length that is not the body's never lets the body out. -/
theorem mismatched_call (ints : ∀ header length, info header = some length →
      -2 ^ 31 ≤ length ∧ length < 2 ^ 31)
    (message : Message) (back : List Message) (conn : Conn)
    (here : AtBoundary (message :: back) conn)
    (bytes : (stream (message :: back)).length < 2 ^ 31) (length : Int)
    (accepted : verdict info message.header = some length)
    (differs : length ≠ message.body.length) :
    (recv_request info conn).1.rearmed = false ∨
      ∃ http request, (recv_request info conn).1 = .submitted http request ∧
        request ≠ message.body := by
  have size := congrArg List.length (stream_cons message back)
  simp only [Message.bytes, List.length_append, crlfcrlf_length] at size
  obtain ⟨mid, header, rest, tail⟩ := header_at_boundary message (stream back) conn
    here.pending here.clean here.flowing here.small (by omega)
  obtain ⟨taken, unread⟩ := read_header_unread conn
  rw [header] at unread
  have clean : 0 ∉ mid.unread := by
    intro zero
    exact here.clean (by rw [unread]; exact List.mem_append_right _ zero)
  obtain ⟨low, high⟩ := ints _ _ (verdict_info info _ _ accepted)
  unfold recv_request
  simp only [header, accepted]
  cases body : readn_timeout mid length with
  | mk result after =>
      cases result with
      | out_of_range =>
          left
          rfl
      | ret count request =>
          dsimp only
          -- A read that reports all of the length has as many bytes, which the body has not.
          by_cases whole : count = length
          · right
            subst whole
            refine ⟨message.header, request, by simp, ?_⟩
            have short : mid.pending.length < 2 ^ 31 := by
              rw [rest]
              simp only [List.length_append]
              omega
            have exact := readn_whole mid after count request clean tail short low high body
            intro same
            subst same
            exact differs exact.symm
          · left
            simp [whole, Outcome.rearmed]

/-- A rejected message whose rest holds a terminator is followed by a call that
parses a header where no message begins. -/
theorem rejected_call (ints : ∀ header length, info header = some length → length < 2 ^ 31)
    (front : List Message) (message : Message) (back : List Message) (conn : Conn)
    (here : AtBoundary (message :: back) conn)
    (bytes : (stream (message :: back)).length < 2 ^ 31)
    (rejected : verdict info message.header = none) (body : message.body ≠ [])
    (more : back ≠ [] ∨ find message.body crlfcrlf ≠ none) :
    (recv_request info conn).1.rearmed = true ∧
      ∀ call : Call, call.before = (recv_request info conn).2 →
        ¬ Aligned (front ++ message :: back) call := by
  have size := congrArg List.length (stream_cons message back)
  simp only [Message.bytes, List.length_append, crlfcrlf_length] at size
  have ran := boundary_call info ints message back conn here (by omega)
    (fun length accepted => by rw [rejected] at accepted; cases accepted)
  have shown := ran.shown
  simp only [afterMessage, rejected, Option.isSome_none, Bool.false_eq_true, ↓reduceIte,
    Prod.mk.injEq] at shown
  obtain ⟨outcome, pending⟩ := shown
  refine ⟨by rw [outcome]; rfl, ?_⟩
  -- A terminator behind the header comes from the body or from the next message.
  obtain ⟨⟨head, tail⟩, found⟩ : ∃ parts,
      (message.body ++ stream back).dropInfix? crlfcrlf = some parts := by
    rw [← Option.isSome_iff_exists, Option.isSome_iff_ne_none, ne_eq,
      Occurrence.split_none_iff]
    intro absent
    rcases more with going | inside
    · cases back with
      | nil => exact going rfl
      | cons next back =>
          refine absent (message.body ++ next.header) (next.body ++ stream back) ?_
          rw [stream_cons, Message.bytes]
          simp
    · apply inside
      unfold find
      cases held : message.body.dropInfix? crlfcrlf with
      | none => rfl
      | some parts =>
          have text := Occurrence.split_text _ _ _ _ held
          refine absurd ?_ (absent parts.1 (parts.2 ++ stream back))
          rw [text]
          simp
  obtain ⟨parsed, member⟩ := opened_present (recv_request info conn).2 head tail ran.clean
    ran.flowing (by rw [pending]; simp only [List.length_append]; omega)
    (by rw [pending]; exact found)
  intro call same aligned
  obtain ⟨front', message', back', split, start, _⟩ :=
    aligned parsed (by rw [same]; exact member)
  have nonempty : 0 < message.body.length := List.length_pos_iff.mpr body
  rw [Call.start, same, pending, stream_append, stream_cons] at start
  simp only [Message.bytes, List.length_append, crlfcrlf_length] at start
  rcases begins_apart front back front' back' message message' split with before | after
  · omega
  · simp only [Message.bytes, List.length_append, crlfcrlf_length] at after
    omega

end Calls

theorem boundaries_force (before : Byte) (messages : List Message) (plan : List Nat)
    (count : Nat) (flowing : (Conn.fresh (stream messages) plan).Flowing)
    (enough : messages.length < count) (small : (stream messages).length < 2 ^ 31)
    (kept : BoundariesKept (GetInfo before) messages
      (calls (GetInfo before) count (Conn.fresh (stream messages) plan))) :
    ∀ front message back, messages = front ++ message :: back →
      Passable (GetInfo before) message back := by
  -- The first message that cannot be passed: the calls ahead of it keep to the boundaries.
  by_contra broken
  obtain ⟨front, message, back, split, passed, fails⟩ :=
    first_unpassable (GetInfo before) messages broken
  have sizes := congrArg List.length (congrArg stream split)
  simp only [stream_append, List.length_append] at sizes
  have short : ∀ other ∈ front, other.header.length + 4 < 2 ^ 31 := by
    intro other member
    obtain ⟨left, right, within⟩ := List.append_of_mem member
    have inner := congrArg List.length (congrArg stream within)
    simp only [stream_append, stream_cons, Message.bytes, List.length_append,
      crlfcrlf_length] at inner
    omega
  have count_split : messages.length = front.length + (back.length + 1) := by
    rw [split]
    simp
  obtain ⟨more, rest⟩ : ∃ more, count = front.length + (more + 2) :=
    ⟨count - front.length - 2, by omega⟩
  have start := at_start messages plan flowing
  have highs (header : List Byte) (length : Int)
      (stored : GetInfo before header = some length) : length < 2 ^ 31 :=
    (GetInfo_int before header length stored).2
  rw [split] at start
  obtain ⟨early, last, run, there, requests, _⟩ := passed_run (GetInfo before) highs front
    (message :: back) _ (more + 2) start short passed
  rw [← split, ← rest] at run
  obtain ⟨same, aligned⟩ := kept
  rw [run] at same aligned
  cases accepted : verdict (GetInfo before) message.header with
  | none =>
      -- Rejected: a later call parses a header where none begins.
      simp only [Passable, accepted, not_or, not_and] at fails
      obtain ⟨body, unended⟩ := fails
      have follows : back ≠ [] ∨ find message.body crlfcrlf ≠ none := by
        by_cases ends : back = []
        · exact Or.inr (unended ends)
        · exact Or.inl ends
      obtain ⟨rearmed, astray⟩ := rejected_call (GetInfo before) highs front message back last
        there (by omega) accepted body follows
      rw [← split] at astray
      refine astray _ rfl (aligned ⟨(recv_request (GetInfo before) last).2,
        (recv_request (GetInfo before) (recv_request (GetInfo before) last).2).1,
        (recv_request (GetInfo before) (recv_request (GetInfo before) last).2).2⟩ ?_)
      simp [calls, rearmed]
  | some length =>
      -- Accepted with another length: its body is never submitted.
      simp only [Passable, accepted] at fails
      rw [submitted_append, requests, split, accepted_append] at same
      have tail := List.append_cancel_left same
      have first : acceptedBodies (GetInfo before) (message :: back) =
          message.body :: acceptedBodies (GetInfo before) back := by
        simp [acceptedBodies, accepted]
      rw [first] at tail
      rcases mismatched_call (GetInfo before) (GetInfo_int before) message back last there
        (by omega) length accepted fails with ended | ⟨http, request, submitted, differs⟩
      · have one : submittedRequests (calls (GetInfo before) (more + 2) last) = [] := by
          simp only [calls, ended, submittedRequests]
          cases outcome : (recv_request (GetInfo before) last).1 with
          | submitted http request => simp [outcome, Outcome.rearmed] at ended
          | _ => simp
        rw [one] at tail
        cases tail
      · have head := congrArg List.head? tail
        simp [calls, submitted, submittedRequests] at head
        exact differs head

/-- In a run to the end of the stream the boundaries are kept when every message
can be passed, and, up to the streams an `int` can index, only then. -/
theorem boundaries_kept (before : Byte) (messages : List Message) (plan : List Nat)
    (count : Nat) (flowing : (Conn.fresh (stream messages) plan).Flowing)
    (enough : messages.length < count) :
    ((∀ message ∈ messages, message.header.length + 4 < 2 ^ 31) →
        (∀ front message back, messages = front ++ message :: back →
          Passable (GetInfo before) message back) →
        BoundariesKept (GetInfo before) messages
          (calls (GetInfo before) count (Conn.fresh (stream messages) plan))) ∧
      ((stream messages).length < 2 ^ 31 →
        BoundariesKept (GetInfo before) messages
          (calls (GetInfo before) count (Conn.fresh (stream messages) plan)) →
        ∀ front message back, messages = front ++ message :: back →
          Passable (GetInfo before) message back) :=
  ⟨fun short passable => passable_run (GetInfo before)
      (fun header length stored => (GetInfo_int before header length stored).2) messages _ count
      (at_start messages plan flowing) enough short passable,
    fun small kept => boundaries_force before messages plan count flowing enough small kept⟩

theorem ended_of_split (header : List Byte)
    (split : (header ++ crlfcrlf).dropInfix? crlfcrlf = some (header, [])) (left right : List Byte)
    (other : header ++ crlfcrlf = left ++ crlfcrlf ++ right) : right = [] := by
  have first := ((Occurrence.split_iff _ _ _ _).mp split).2 left right other
  have lengths := congrArg List.length other
  simp only [List.length_append] at lengths
  exact List.eq_nil_of_length_eq_zero (by omega)

/-- A message for another resource, whose body of 44 bytes is a request. -/
def smuggling : Message where
  header := text "POST /other HTTP/1.1\r\nContent-Length:44"
  body := text "POST /request HTTP/1.1\r\nContent-Length:0\r\n\r\n"
  ended := ended_of_split _ (by decide)
  clean := by decide

/-- The rejected body is parsed as a request of its own and submitted. -/
theorem rejected_body_submitted :
    smuggling.body.length = 44 ∧
      (Conn.fresh (stream [smuggling]) (List.replicate 90 512)).Flowing ∧
      ¬ BoundariesKept (GetInfo 0) [smuggling]
        (calls (GetInfo 0) 2 (Conn.fresh (stream [smuggling]) (List.replicate 90 512))) := by
  refine ⟨by decide, ⟨by decide, by decide⟩, ?_⟩
  rintro ⟨same, _⟩
  have submitted : submittedRequests
      (calls (GetInfo 0) 2 (Conn.fresh (stream [smuggling]) (List.replicate 90 512))) = [[]] := by
    decide +kernel
  have accepted : acceptedBodies (GetInfo 0) [smuggling] = [] := by decide +kernel
  rw [submitted, accepted] at same
  cases same

def spoken : Message where
  header := text "POST /request HTTP/1.1\r\nContent-Length:3"
  body := text "abc"
  ended := ended_of_split _ (by decide)
  clean := by decide

def bodiless : Message where
  header := text "GET / HTTP/1.1\r\nContent-Length:0"
  body := []
  ended := ended_of_split _ (by decide)
  clean := by decide

theorem boundaries_kept_example :
    BoundariesKept (GetInfo 0) [spoken, bodiless, spoken] (calls (GetInfo 0) 4
      (Conn.fresh (stream [spoken, bodiless, spoken]) (List.replicate 200 5))) := by
  have short : ∀ message ∈ [spoken, bodiless, spoken], message.header.length + 4 < 2 ^ 31 := by
    decide
  have first : verdict (GetInfo 0) spoken.header = some 3 := by decide +kernel
  have second : verdict (GetInfo 0) bodiless.header = none := by decide +kernel
  refine (boundaries_kept 0 [spoken, bodiless, spoken] (List.replicate 200 5) 4
    ⟨fun size member => by rw [List.eq_of_mem_replicate member]; decide,
      by decide +kernel⟩ (by decide)).1 short ?_
  apply passable_cons _ _ _ (by simp only [Passable, first]; rfl)
  apply passable_cons _ _ _ (by simp only [Passable, second]; exact Or.inl rfl)
  apply passable_cons _ _ _ (by simp only [Passable, first]; rfl)
  intro front message back split
  simp at split

end AsrServer.MessageBoundaries
