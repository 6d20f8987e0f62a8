import AsrServer.Bytes

/-!
The write path: `generate_http_header`, `writen_timeout` and `send_result`. A
plan has one entry for each poll and write that `writen_timeout` comes to; the
end of a plan is a poll that times out. How much of a buffer a plan lets out is
`room`, the bytes of its writes before the first that fails, so whether a
response is cut short can be read off its two plans.
-/

namespace AsrServer.Reply

open Bytes

/-- One round of the loop in `writen_timeout`: `poll` returns 0 or less, or
`write` returns `n`. -/
inductive WriteRound where
  | timeout
  | wrote (n : Int)
  deriving DecidableEq, Repr

def defaultEmptyResult : List Byte := text "<DOCUMENT></DOCUMENT>"

/-- `generate_http_header`; `timestr` is what `strftime` makes of the clock. -/
def generate_http_header (timestr : List Byte) (len : Nat) : List Byte :=
  text "HTTP/1.1 200 OK\r\n" ++ (text "Date:" ++ timestr ++ text "\r\n") ++
    text ("Content-Length:" ++ toString len ++ "\r\n") ++
    text "Content-Type: text/xml; charset=utf-8\r\n" ++ text "\r\n"

/-- The loop of `writen_timeout`: what it returns and the bytes that went out. The
kernel never takes more than it is offered. -/
def write_loop (buf_len : Int) (buf : List Byte) (plan : List WriteRound) : Int × List Byte :=
  if buf = [] then (buf_len, [])
  else
    match plan with
    | [] => (-1, [])
    | .timeout :: _ => (-1, [])
    | .wrote n :: later =>
        if n ≤ 0 then (buf_len - buf.length, [])
        else
          let rest := write_loop buf_len (buf.drop n.toNat) later
          (rest.1, buf.take n.toNat ++ rest.2)

def writen_timeout (buf : List Byte) (plan : List WriteRound) : Int × List Byte :=
  write_loop buf.length buf plan

/-- One call of `send_result`: the response and the plans of its two writes. -/
structure Sent where
  header : List Byte
  body : List Byte
  headerPlan : List WriteRound
  bodyPlan : List WriteRound
  deriving DecidableEq, Repr

/-- `send_result`: what it returns and the bytes that went out. -/
def send_result (sent : Sent) : Int × List Byte :=
  if sent.header.length ≤ 0 then (-1, [])
  else
    let head := writen_timeout sent.header sent.headerPlan
    if head.1 ≠ sent.header.length then (-2, head.2)
    else
      let tail := writen_timeout sent.body sent.bodyPlan
      if tail.1 ≠ sent.body.length then (-3, head.2 ++ tail.2)
      else (0, head.2 ++ tail.2)

def Sent.ret (sent : Sent) : Int := (send_result sent).1

def Sent.written (sent : Sent) : List Byte := (send_result sent).2

def Sent.response (sent : Sent) : List Byte := sent.header ++ sent.body

def WriteRound.count : WriteRound → Nat
  | .timeout => 0
  | .wrote n => n.toNat

/-- The bytes a plan can let out: those of its rounds before the first that fails. -/
def room (plan : List WriteRound) : Nat :=
  ((plan.map WriteRound.count).takeWhile fun count => 0 < count).sum

def Sent.Cut (sent : Sent) : Prop :=
  room sent.headerPlan < sent.header.length ∨ room sent.bodyPlan < sent.body.length

/-- The first poll or the first write of the response fails. -/
def Sent.Blocked (sent : Sent) : Prop := room sent.headerPlan = 0

instance (sent : Sent) : Decidable sent.Cut := inferInstanceAs (Decidable (_ ∨ _))

instance (sent : Sent) : Decidable sent.Blocked := inferInstanceAs (Decidable (_ = _))

theorem generate_nonempty (timestr : List Byte) (len : Nat) :
    generate_http_header timestr len ≠ [] := by
  simp [generate_http_header, text]

theorem room_timeout (later : List WriteRound) : room (.timeout :: later) = 0 := by
  simp [room, WriteRound.count]

theorem room_failed (n : Int) (later : List WriteRound) (failed : n ≤ 0) :
    room (.wrote n :: later) = 0 := by
  simp [room, WriteRound.count, failed]

theorem room_wrote (n : Int) (later : List WriteRound) (positive : 0 < n) :
    room (.wrote n :: later) = n.toNat + room later := by
  simp [room, WriteRound.count, positive]

theorem write_loop_written (buf_len : Int) (plan : List WriteRound) (buf : List Byte) :
    (write_loop buf_len buf plan).2 = buf.take (room plan) := by
  induction plan generalizing buf with
  | nil =>
      unfold write_loop
      split <;> simp [room]
  | cons round later ih =>
      unfold write_loop
      split
      · rename_i empty
        simp [empty]
      · cases round with
        | timeout => simp [room_timeout]
        | wrote n =>
            dsimp only
            split
            · rename_i failed
              simp [room_failed n later failed]
            · rename_i positive
              -- The bytes of this round, then what the rest has room for.
              rw [room_wrote n later (by omega), List.take_add]
              simp only [ih]

/-- The whole buffer is reported exactly when the plan has room for it. -/
theorem write_loop_whole (buf_len : Int) (plan : List WriteRound) (buf : List Byte)
    (within : (buf.length : Int) ≤ buf_len) :
    (write_loop buf_len buf plan).1 = buf_len ↔ buf.length ≤ room plan := by
  induction plan generalizing buf with
  | nil =>
      unfold write_loop
      split
      · rename_i empty
        simp [empty]
      · rename_i nonempty
        have size := List.length_pos_iff.mpr nonempty
        simp only [room, List.map_nil, List.takeWhile_nil, List.sum_nil]
        omega
  | cons round later ih =>
      unfold write_loop
      split
      · rename_i empty
        simp [empty]
      · rename_i nonempty
        have size := List.length_pos_iff.mpr nonempty
        cases round with
        | timeout =>
            rw [room_timeout]
            dsimp only
            omega
        | wrote n =>
            dsimp only
            split
            · rename_i failed
              rw [room_failed n later failed]
              omega
            · rename_i takes
              rw [room_wrote n later (by omega), ih _ (by simp only [List.length_drop]; omega)]
              simp only [List.length_drop]
              omega

theorem writen_whole (buf : List Byte) (plan : List WriteRound) :
    (writen_timeout buf plan).1 = buf.length ↔ buf.length ≤ room plan :=
  write_loop_whole buf.length plan buf (Int.le_refl _)

theorem writen_written (buf : List Byte) (plan : List WriteRound) :
    (writen_timeout buf plan).2 = buf.take (room plan) :=
  write_loop_written buf.length plan buf

section Response
variable (sent : Sent)

theorem ret_negative (header : sent.header ≠ []) : sent.ret < 0 ↔ sent.Cut := by
  have size := List.length_pos_iff.mpr header
  unfold Sent.ret Sent.Cut send_result
  rw [if_neg (by omega)]
  dsimp only
  by_cases head : sent.header.length ≤ room sent.headerPlan
  · rw [if_neg (not_not.mpr ((writen_whole _ _).mpr head))]
    by_cases tail : sent.body.length ≤ room sent.bodyPlan
    · rw [if_neg (not_not.mpr ((writen_whole _ _).mpr tail))]
      dsimp only
      omega
    · rw [if_pos (mt (writen_whole _ _).mp tail)]
      dsimp only
      omega
  · rw [if_pos (mt (writen_whole _ _).mp head)]
    dsimp only
    omega

theorem written_uncut (header : sent.header ≠ []) (whole : ¬ sent.Cut) :
    sent.written = sent.response := by
  have size := List.length_pos_iff.mpr header
  unfold Sent.Cut at whole
  unfold Sent.written Sent.response send_result
  rw [if_neg (by omega)]
  dsimp only
  rw [if_neg (not_not.mpr ((writen_whole _ _).mpr (by omega))),
    if_neg (not_not.mpr ((writen_whole _ _).mpr (by omega))), writen_written, writen_written,
    List.take_of_length_le (by omega), List.take_of_length_le (by omega)]

theorem written_front : sent.written <+: sent.response := by
  unfold Sent.written Sent.response send_result
  split
  · exact List.nil_prefix
  · dsimp only
    split
    · rw [writen_written]
      exact (List.take_prefix _ _).trans (List.prefix_append _ _)
    · rename_i head
      have all := (writen_whole _ _).mp (not_not.mp head)
      -- The header is out in full, so the body's part follows it directly.
      split <;>
        (rw [writen_written, writen_written, List.take_of_length_le all]
         exact (List.prefix_append_right_inj _).mpr (List.take_prefix _ _))

theorem written_nothing (header : sent.header ≠ []) :
    sent.written = [] ↔ sent.Blocked := by
  have size := List.length_pos_iff.mpr header
  unfold Sent.written Sent.Blocked send_result
  rw [if_neg (by omega)]
  dsimp only
  split
  · rw [writen_written]
    simp [List.take_eq_nil_iff, header]
  · rename_i head
    have all := (writen_whole _ _).mp (not_not.mp head)
    have room : room sent.headerPlan ≠ 0 := by omega
    split <;> simp [writen_written, List.take_of_length_le all, header, room]

end Response

end AsrServer.Reply
