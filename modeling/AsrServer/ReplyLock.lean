import AsrServer.CriticalSection
import AsrServer.Server

/-!
`send_result` write by write. Loader threads that answer requests of the same
connection share its handle, and each of them writes a header and a body in as
many pieces as the kernel takes; between two pieces any other thread may run.
What keeps the responses apart is `hdle->lock()`. With it every connection gets
whole calls of `send_result`, one behind the other: the one action `send` of the
server stands for them.
-/

namespace AsrServer.ReplyLock

open Bytes Reply Server CriticalSection

/-- A response that gets as far as `hdle->lock()`. -/
structure Call where
  sent : Sent
  header : sent.header ≠ []

/-- Where a thread is between `lock` and `unlock`; `left` is what `writen_timeout` still has to
write and `plan` what the polls and writes before it will do. -/
inductive Progress where
  | header (sent : Sent) (left : List Byte) (plan : List WriteRound)
  | body (sent : Sent) (left : List Byte) (plan : List WriteRound)
  | ended (sent : Sent) (ret : Int)
  deriving DecidableEq, Repr

def enter (call : Call) : Progress := .header call.sent call.sent.header call.sent.headerPlan

/-- What `writen_timeout` comes to next: it returns with all written or before that, or
goes round. -/
inductive Turn where
  | whole
  | failed
  | wrote (piece left : List Byte) (plan : List WriteRound)

def turn (left : List Byte) (plan : List WriteRound) : Turn :=
  if left = [] then .whole
  else
    match plan with
    | [] | .timeout :: _ => .failed
    | .wrote n :: later =>
        if n ≤ 0 then .failed else .wrote (left.take n.toNat) (left.drop n.toNat) later

def micro : Progress → List Byte → Option (Progress × List Byte)
  | .header sent left plan, output =>
      match turn left plan with
      | .whole => some (.body sent sent.body sent.bodyPlan, output)
      | .failed => some (.ended sent (-2), output)
      | .wrote piece left plan => some (.header sent left plan, output ++ piece)
  | .body sent left plan, output =>
      match turn left plan with
      | .whole => some (.ended sent 0, output)
      | .failed => some (.ended sent (-3), output)
      | .wrote piece left plan => some (.body sent left plan, output ++ piece)
  | .ended _ _, _ => none

def rest : Progress → Int × List Byte
  | .header sent left plan =>
      let head := write_loop sent.header.length left plan
      if head.1 ≠ sent.header.length then (-2, head.2)
      else
        let tail := writen_timeout sent.body sent.bodyPlan
        if tail.1 ≠ sent.body.length then (-3, head.2 ++ tail.2)
        else (0, head.2 ++ tail.2)
  | .body sent left plan =>
      let tail := write_loop sent.body.length left plan
      if tail.1 ≠ sent.body.length then (-3, tail.2) else (0, tail.2)
  | .ended _ ret => (ret, [])

theorem rest_enter (call : Call) : rest (enter call) = send_result call.sent := by
  have size := List.length_pos_iff.mpr call.header
  unfold rest enter send_result
  rw [if_neg (by omega)]
  rfl

/-! `write_loop` is made of these turns. -/

theorem turn_whole (size : Int) (left : List Byte) (plan : List WriteRound)
    (shape : turn left plan = .whole) : write_loop size left plan = (size, []) := by
  unfold turn at shape
  split at shape
  · rename_i empty
    rw [write_loop.eq_def, if_pos empty]
  · split at shape
    · cases shape
    · cases shape
    · split at shape <;> cases shape

theorem turn_failed (size : Nat) (left : List Byte) (plan : List WriteRound)
    (shape : turn left plan = .failed) :
    (write_loop size left plan).1 ≠ size ∧ (write_loop size left plan).2 = [] := by
  unfold turn at shape
  split at shape
  · cases shape
  · rename_i nonempty
    have length := List.length_pos_iff.mpr nonempty
    rw [write_loop.eq_def, if_neg nonempty]
    split at shape
    · exact ⟨by dsimp only; omega, rfl⟩
    · exact ⟨by dsimp only; omega, rfl⟩
    · split at shape
      · rename_i low
        simp only [if_pos low]
        exact ⟨by omega, trivial⟩
      · cases shape

theorem turn_wrote (size : Int) (left piece later : List Byte) (plan next : List WriteRound)
    (shape : turn left plan = .wrote piece later next) :
    write_loop size left plan =
      ((write_loop size later next).1, piece ++ (write_loop size later next).2) := by
  unfold turn at shape
  split at shape
  · cases shape
  · rename_i nonempty
    rw [write_loop.eq_def, if_neg nonempty]
    split at shape
    · cases shape
    · cases shape
    · split at shape
      · cases shape
      · rename_i high
        cases shape
        simp only [if_neg high]

theorem micro_rest (now next : Progress) (output after : List Byte)
    (moved : micro now output = some (next, after)) :
    ∃ piece, after = output ++ piece ∧ rest now = ((rest next).1, piece ++ (rest next).2) := by
  cases now with
  | header sent left plan =>
      simp only [micro] at moved
      cases shape : turn left plan with
      | whole =>
          simp only [shape] at moved
          cases moved
          refine ⟨[], by simp, ?_⟩
          simp only [rest, turn_whole _ left plan shape, ne_eq, not_true_eq_false, ↓reduceIte,
            List.nil_append, writen_timeout]
      | failed =>
          simp only [shape] at moved
          cases moved
          obtain ⟨short, nothing⟩ := turn_failed sent.header.length left plan shape
          exact ⟨[], by simp, by simp [rest, short, nothing]⟩
      | wrote piece later plan' =>
          simp only [shape] at moved
          cases moved
          refine ⟨piece, rfl, ?_⟩
          simp only [rest, turn_wrote _ left piece later plan plan' shape]
          split
          · rfl
          · split <;> simp
  | body sent left plan =>
      simp only [micro] at moved
      cases shape : turn left plan with
      | whole =>
          simp only [shape] at moved
          cases moved
          exact ⟨[], by simp, by simp [rest, turn_whole _ left plan shape]⟩
      | failed =>
          simp only [shape] at moved
          cases moved
          obtain ⟨short, nothing⟩ := turn_failed sent.body.length left plan shape
          exact ⟨[], by simp, by simp [rest, short, nothing]⟩
      | wrote piece later plan' =>
          simp only [shape] at moved
          cases moved
          refine ⟨piece, rfl, ?_⟩
          simp only [rest, turn_wrote _ left piece later plan plan' shape]
          split <;> rfl
  | ended sent ret => cases moved

/-- What a call has written and what it would still write are the bytes of `send_result`. -/
theorem ran_rest (call : Call) (before after : List Byte) (now : Progress)
    (ran : Ran enter micro call before now after) :
    ∃ written, after = before ++ written ∧
      send_result call.sent = ((rest now).1, written ++ (rest now).2) := by
  suffices moves : ∀ first last : Progress × List Byte,
      Machine.Run (fun place => micro place.1 place.2) first last →
      ∃ written, last.2 = first.2 ++ written ∧
        rest first.1 = ((rest last.1).1, written ++ (rest last.1).2) by
    obtain ⟨written, out, same⟩ := moves _ _ ran
    rw [rest_enter] at same
    exact ⟨written, out, same⟩
  intro first last ran
  induction ran with
  | done => exact ⟨[], by simp, rfl⟩
  | @next first middle last _ moved _ ih =>
      obtain ⟨piece, out, same⟩ := micro_rest first.1 middle.1 first.2 middle.2 moved
      obtain ⟨written, later, again⟩ := ih
      refine ⟨piece ++ written, by rw [later, out, List.append_assoc], ?_⟩
      rw [same, again, List.append_assoc]

theorem ended_rest (now : Progress) (output : List Byte) (ended : micro now output = none) :
    ∃ sent ret, now = .ended sent ret := by
  cases now with
  | header sent left plan =>
      simp only [micro] at ended
      split at ended <;> cases ended
  | body sent left plan =>
      simp only [micro] at ended
      split at ended <;> cases ended
  | ended sent ret => exact ⟨sent, ret, rfl⟩

theorem ran_whole (call : Call) (before after : List Byte) (now : Progress)
    (ran : Ran enter micro call before now after) (ended : micro now after = none) :
    after = before ++ call.sent.written ∧ (rest now).1 = call.sent.ret := by
  obtain ⟨written, out, same⟩ := ran_rest call before after now ran
  obtain ⟨sent, ret, shape⟩ := ended_rest now after ended
  subst shape
  unfold Sent.written Sent.ret
  rw [same, out]
  exact ⟨by simp [rest], rfl⟩

section Runs
variable {L : Type} [DecidableEq L]

/-- The loaders inside `send_result`: the key of a lock is its handle. -/
abbrev Sending (L : Type) := CriticalSection.State L HandleId Call Progress (List Byte)

abbrev Running (state : Sending L) : Prop :=
  Transition.Reachable (CriticalSection.step enter micro)
    (CriticalSection.Initial fun _ : HandleId => ([] : List Byte)) state

structure Whole (state : Sending L) (hdle : HandleId) : Prop where
  free : state.owner hdle = none →
    state.shared hdle = (state.finished hdle).flatMap fun done => done.1.sent.written
  held : ∀ loader, state.owner hdle = some loader → ∃ call now written,
    state.places loader = .inside hdle call now ∧
      state.shared hdle =
        ((state.finished hdle).flatMap fun done => done.1.sent.written) ++ written ∧
      send_result call.sent = ((rest now).1, written ++ (rest now).2)
  returns : ∀ done ∈ state.finished hdle, (rest done.2).1 = done.1.sent.ret

theorem serial_written {finished : List (Call × Progress)} {output : List Byte}
    (serial : Serial enter micro [] finished output) :
    output = finished.flatMap fun done => done.1.sent.written := by
  have folded := serial.fold (fun call output => output ++ call.sent.written)
    (fun call before now after ran ended => (ran_whole call before after now ran ended).1)
  rw [folded]
  clear folded serial output
  induction finished using List.reverseRecOn with
  | nil => rfl
  | append_singleton earlier done ih => simp [ih]

/-- Whatever the loaders do between two writes, a connection gets whole calls of `send_result`
one behind the other, each with the return value it has by itself, and the bytes of the one
under way are the front of what it would write alone. -/
theorem replies_whole (state : Sending L) (reached : Running state) (hdle : HandleId) :
    Whole state hdle := by
  have guarded := reachable_guarded _ reached
  refine ⟨?_, ?_, ?_⟩
  · intro free
    exact serial_written (guarded.free hdle free)
  · intro loader held
    obtain ⟨call, now, inside⟩ := (guarded.owner hdle loader).mp held
    obtain ⟨middle, serial, ran⟩ := guarded.held loader hdle call now inside
    obtain ⟨written, out, same⟩ := ran_rest call middle _ now ran
    exact ⟨call, now, written, inside, by rw [out, serial_written serial], same⟩
  · intro done member
    have serial : ∃ last, Serial enter micro [] (state.finished hdle) last := by
      cases held : state.owner hdle with
      | none => exact ⟨_, guarded.free hdle held⟩
      | some loader =>
          obtain ⟨call, now, inside⟩ := (guarded.owner hdle loader).mp held
          obtain ⟨middle, serial, _⟩ := guarded.held loader hdle call now inside
          exact ⟨middle, serial⟩
    obtain ⟨last, serial⟩ := serial
    obtain ⟨before, after, ran, ended⟩ := serial.ended done member
    exact (ran_whole done.1 before after done.2 ran ended).2

end Runs

/-- One loader has written a response and the first byte of the next is out from another. -/
theorem replies_whole_two : ∃ state : Sending (Fin 2),
    state.shared 0 = text "H1B1H" ∧ Whole state 0 := by
  let first : Call := ⟨⟨text "H1", text "B1", [.wrote 1, .wrote 1], [.wrote 2]⟩, by decide⟩
  let second : Call := ⟨⟨text "H2", text "B2", [.wrote 1, .wrote 1], [.wrote 2]⟩, by decide⟩
  obtain ⟨state, reached, shown⟩ := Transition.exec_reaches
    (.start ⟨fun _ => rfl, fun _ => rfl, rfl, fun _ => rfl⟩ :
      Running (L := Fin 2) ⟨fun _ => .outside, fun _ => none, fun _ => [], fun _ => []⟩)
    [.call 0 0 first, .call 1 0 second, .lock 0, .work 0, .work 0, .work 0, .work 0, .work 0,
      .unlock 0, .lock 1, .work 1]
    (fun state => decide (state.shared 0 = text "H1B1H"))
    (by decide +kernel)
  exact ⟨state, of_decide_eq_true shown, replies_whole state reached 0⟩

end AsrServer.ReplyLock
