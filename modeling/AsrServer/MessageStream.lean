import AsrServer.Framing
import AsrServer.ReadBounds

/-!
A stream of complete messages, taken off one call each. At a message's first
byte an accepted header takes its body with it; a rejected one leaves the body
where the next call looks for a header. A message is passed when that call
begins right behind it.
-/

namespace AsrServer.MessageStream

open Bytes ReadPath Framing ReadBounds

/-- A message whose header block is ended by its first CRLFCRLF, without zero
bytes. -/
structure Message where
  header : List Byte
  body : List Byte
  ended : ∀ left right, header ++ crlfcrlf = left ++ crlfcrlf ++ right → right = []
  clean : 0 ∉ header ++ crlfcrlf ++ body

def Message.bytes (message : Message) : List Byte :=
  message.header ++ crlfcrlf ++ message.body

def stream (messages : List Message) : List Byte := messages.flatMap Message.bytes

theorem stream_append (front back : List Message) :
    stream (front ++ back) = stream front ++ stream back :=
  List.flatMap_append ..

theorem stream_cons (message : Message) (back : List Message) :
    stream (message :: back) = message.bytes ++ stream back :=
  List.flatMap_cons ..

def submittedRequests (calls : List Call) : List (List Byte) :=
  calls.filterMap fun call =>
    match call.outcome with
    | .submitted _ request => some request
    | _ => none

def acceptedBodies (info : List Byte → Option Int) (messages : List Message) : List (List Byte) :=
  (messages.filter fun message => (verdict info message.header).isSome).map Message.body

theorem message_found (message : Message) (more : List Byte) :
    (message.bytes ++ more).dropInfix? crlfcrlf = some (message.header, message.body ++ more) := by
  have split := Occurrence.split_of_first crlfcrlf message.header (message.body ++ more)
    message.ended
  simpa [Message.bytes] using split

theorem message_opened (message : Message) (more : List Byte)
    (short : message.header.length + 4 < 2 ^ 31) :
    cut_header (message.bytes ++ more) =
      some (.complete message.header, message.body ++ more) := by
  rw [cut_found _ _ _ (message_found message more), toInt_eq _ (by omega) (by omega),
    if_pos (by omega), toInt_eq _ (by omega) (by omega), if_neg (by omega)]
  have size : ((message.header.length : Int) + 4).toNat =
      (message.header ++ crlfcrlf).length := by
    simp only [List.length_append, crlfcrlf_length]
    omega
  rw [size, Int.toNat_natCast]
  simp only [Message.bytes, List.append_assoc, List.take_left]
  rw [← List.append_assoc, List.drop_left]

structure AtBoundary (back : List Message) (conn : Conn) : Prop where
  pending : conn.pending = stream back
  clean : 0 ∉ conn.unread
  flowing : conn.Flowing
  small : conn.read_buf.length < readBufSize

section Calls
variable (info : List Byte → Option Int)

theorem recv_clean (conn : Conn) (clean : 0 ∉ conn.unread) :
    0 ∉ (recv_request info conn).2.unread := by
  obtain ⟨taken, split⟩ := recv_unread info conn
  intro zero
  exact clean (by rw [split]; exact List.mem_append_right _ zero)

theorem missing_call (conn : Conn) (clean : 0 ∉ conn.unread)
    (missing : conn.pending.dropInfix? crlfcrlf = none) :
    opened conn = none ∧ (recv_request info conn).1 = .disconnect none := by
  cases header : read_http_header_timeout conn with
  | mk result mid =>
      have spec := read_header_spec conn mid result header (clean_of_unread _ _ clean)
      have failed : result = .error := by
        by_contra present
        have found := spec.found present
        rw [cut_missing _ missing] at found
        cases found
      subst failed
      simp [opened, recv_request, header]

theorem header_at_boundary (message : Message) (more : List Byte) (conn : Conn)
    (pending : conn.pending = message.bytes ++ more) (clean : 0 ∉ conn.unread)
    (flowing : conn.Flowing) (small : conn.read_buf.length < readBufSize)
    (short : message.header.length + 4 < 2 ^ 31) :
    ∃ mid, read_http_header_timeout conn = (.complete message.header, mid) ∧
      mid.pending = message.body ++ more ∧ mid.read_buf.length < readBufSize := by
  cases header : read_http_header_timeout conn with
  | mk result mid =>
      have spec := read_header_spec conn mid result header (clean_of_unread _ _ clean)
      have cut := message_opened message more short
      rw [← pending] at cut
      have present : result ≠ .error := by
        intro failed
        have drained := spec.drained flowing failed
        rw [cut] at drained
        cases drained
      have found := spec.found present
      rw [cut] at found
      simp only [Option.some.injEq, Prod.mk.injEq] at found
      obtain ⟨result_eq, rest_eq⟩ := found
      subst result_eq
      refine ⟨mid, rfl, rest_eq.symm, ?_⟩
      -- The first terminator is the message's own, at an offset that fits.
      have offset : OffsetFits (conn.read_buf ++ conn.unread) := by
        intro head tail split
        change conn.pending.dropInfix? crlfcrlf = _ at split
        rw [pending, message_found] at split
        cases split
        exact short
      have loop := header_loop_small conn.plan conn.read_buf conn.unread message.header clean
        offset (small_tail_of_short _ small)
      unfold read_http_header_timeout at header
      rw [header] at loop
      exact loop rfl

def afterMessage (message : Message) (back : List Message) : Outcome × List Byte :=
  if (verdict info message.header).isSome then
    (.submitted message.header message.body, stream back)
  else (.invalid message.header, message.body ++ stream back)

structure MessageCall (message : Message) (conn : Conn) (shown : Outcome × List Byte) :
    Prop where
  opened : ∃ mid, opened conn = some (message.header, mid)
  shown : ((recv_request info conn).1, (recv_request info conn).2.pending) = shown
  clean : 0 ∉ (recv_request info conn).2.unread
  flowing : (recv_request info conn).2.Flowing
  small : (recv_request info conn).2.read_buf.length < readBufSize

theorem frame_at_boundary (message : Message) (back : List Message)
    (short : message.header.length + 4 < 2 ^ 31)
    (agrees : ∀ length, verdict info message.header = some length →
      length = message.body.length) :
    frame info (message.bytes ++ stream back) = afterMessage info message back := by
  unfold frame afterMessage
  rw [nextHeader_found _ _ _ (message_opened message (stream back) short)]
  cases accepted : verdict info message.header with
  | none => simp [accepted]
  | some length =>
      have size := agrees length accepted
      subst size
      simp only [accepted]
      rw [nextBody_whole _ _ (by omega) (by simp only [List.length_append]; omega)]
      simp

/-- At a boundary an accepted message goes out whole, and a rejected one leaves
its body in front of the next. -/
theorem boundary_call (ints : ∀ header length, info header = some length → length < 2 ^ 31)
    (message : Message) (back : List Message) (conn : Conn)
    (here : AtBoundary (message :: back) conn) (short : message.header.length + 4 < 2 ^ 31)
    (agrees : ∀ length, verdict info message.header = some length →
      length = message.body.length) :
    MessageCall info message conn (afterMessage info message back) := by
  have bytes : conn.pending = message.bytes ++ stream back := here.pending
  obtain ⟨mid, header, rest, tail⟩ := header_at_boundary message (stream back) conn bytes
    here.clean here.flowing here.small short
  have fits : CallFits info conn := by
    intro http found length ran accepted
    rw [header] at ran
    cases ran
    have size := agrees length accepted
    have bound := ints _ _ (verdict_info info _ _ accepted)
    unfold readBufSize at tail
    exact ⟨by omega, bound⟩
  have framed := frame_at_boundary info message back short agrees
  rw [← bytes] at framed
  have spec : CallRead info conn (recv_request info conn).1 (recv_request info conn).2 :=
    recv_spec info conn _ _ rfl (clean_of_unread _ _ here.clean) fits
  exact ⟨⟨mid, by simp [ReadPath.opened, header]⟩, by rw [← framed, spec.exact here.flowing],
    recv_clean info conn here.clean, spec.flows here.flowing,
    recv_small info conn mid message.header header tail⟩

/-- The length that is stored is that of the body, or there is no body to skip. -/
def Passed (message : Message) : Prop :=
  match verdict info message.header with
  | some length => length = message.body.length
  | none => message.body = []

theorem passed_agrees (message : Message) (passed : Passed info message) (length : Int)
    (accepted : verdict info message.header = some length) :
    length = message.body.length := by
  simpa only [Passed, accepted] using passed

theorem passed_rest (message : Message) (back : List Message)
    (passed : Passed info message) :
    (afterMessage info message back).1.rearmed = true ∧
      (afterMessage info message back).2 = stream back := by
  unfold afterMessage
  unfold Passed at passed
  cases accepted : verdict info message.header with
  | none =>
      simp only [accepted] at passed
      simp [passed, Outcome.rearmed]
  | some length => simp [Outcome.rearmed]

theorem submitted_after (message : Message) (back : List Message) :
    (match (afterMessage info message back).1 with
      | .submitted _ request => [request]
      | _ => []) = acceptedBodies info [message] := by
  unfold afterMessage acceptedBodies
  cases accepted : verdict info message.header <;> simp [accepted]

def BeginsAt (messages : List Message) (call : Call) : Prop :=
  ∃ front message back mid, messages = front ++ message :: back ∧
    call.before.pending = stream (message :: back) ∧
    opened call.before = some (message.header, mid)

theorem begins_later (message : Message) (messages : List Message) (call : Call)
    (begins : BeginsAt messages call) : BeginsAt (message :: messages) call := by
  obtain ⟨front, next, back, mid, split, pending, parsed⟩ := begins
  exact ⟨message :: front, next, back, mid, by rw [split, List.cons_append], pending, parsed⟩

theorem passed_run (ints : ∀ header length, info header = some length → length < 2 ^ 31)
    (front back : List Message) (conn : Conn) (more : Nat)
    (here : AtBoundary (front ++ back) conn)
    (short : ∀ message ∈ front, message.header.length + 4 < 2 ^ 31)
    (passed : ∀ message ∈ front, Passed info message) :
    ∃ early last, calls info (front.length + more) conn = early ++ calls info more last ∧
      AtBoundary back last ∧ submittedRequests early = acceptedBodies info front ∧
      ∀ call ∈ early, BeginsAt (front ++ back) call := by
  -- On the messages in front, each of which takes one call.
  induction front generalizing conn with
  | nil =>
      refine ⟨[], conn, by simp, here, rfl, ?_⟩
      simp
  | cons message front ih =>
      have call := boundary_call info ints message (front ++ back) conn here
        (short message (List.mem_cons_self ..))
        (passed_agrees info message (passed message (List.mem_cons_self ..)))
      obtain ⟨rearmed, rest⟩ :=
        passed_rest info message (front ++ back) (passed message (List.mem_cons_self ..))
      rw [← call.shown] at rearmed rest
      obtain ⟨early, last, run, there, requests, begins⟩ :=
        ih (recv_request info conn).2 ⟨rest, call.clean, call.flowing, call.small⟩
          (fun other member => short other (List.mem_cons_of_mem _ member))
          (fun other member => passed other (List.mem_cons_of_mem _ member))
      have first := submitted_after info message (front ++ back)
      rw [← call.shown] at first
      refine ⟨⟨conn, (recv_request info conn).1, (recv_request info conn).2⟩ :: early, last,
        ?_, there, ?_, ?_⟩
      · rw [List.length_cons, Nat.add_right_comm, calls]
        simp only [rearmed, ↓reduceIte, run, List.cons_append]
      · have joined : acceptedBodies info (message :: front) =
            acceptedBodies info [message] ++ acceptedBodies info front := by
          unfold acceptedBodies
          rw [← List.map_append, ← List.filter_append, List.singleton_append]
        rw [joined, ← first, ← requests]
        unfold submittedRequests
        cases (recv_request info conn).1 <;> simp
      · intro other member
        rcases List.mem_cons.mp member with same | later
        · obtain ⟨mid, parsed⟩ := call.opened
          subst same
          exact ⟨[], message, front ++ back, mid, rfl, here.pending, parsed⟩
        · exact begins_later message _ other (begins other later)

theorem submitted_append (first second : List Call) :
    submittedRequests (first ++ second) = submittedRequests first ++ submittedRequests second := by
  simp [submittedRequests]

theorem accepted_append (first second : List Message) :
    acceptedBodies info (first ++ second) =
      acceptedBodies info first ++ acceptedBodies info second := by
  simp [acceptedBodies]

end Calls

theorem at_start (messages : List Message) (plan : List Nat)
    (flowing : (Conn.fresh (stream messages) plan).Flowing) :
    AtBoundary messages (Conn.fresh (stream messages) plan) where
  pending := by simp [Conn.pending, Conn.fresh]
  clean := by
    simp only [Conn.fresh, stream, List.mem_flatMap, not_exists, not_and]
    exact fun message _ => message.clean
  flowing := flowing
  small := by simp [Conn.fresh, readBufSize]

end AsrServer.MessageStream
