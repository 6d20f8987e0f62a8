import AsrServer.Reply

/-!
`send_result` against every sequence of poll and write results. The results come without
end, as from the kernel; a write that succeeds takes at least one byte, so the loop asks for
no more of them than there are bytes, and what it asks for is a plan.
-/

namespace AsrServer.Reply

open Bytes

def write_rounds (buf_len : Int) : Nat → (Nat → WriteRound) → List Byte → Option (Int × List Byte)
  | 0, _, _ => none
  | fuel + 1, results, buf =>
      if buf = [] then some (buf_len, [])
      else
        match results 0 with
        | .timeout => some (-1, [])
        | .wrote n =>
            if n ≤ 0 then some (buf_len - buf.length, [])
            else
              (write_rounds buf_len fuel (fun round => results (round + 1)) (buf.drop n.toNat)).map
                fun rest => (rest.1, buf.take n.toNat ++ rest.2)

def asked (results : Nat → WriteRound) (buf : List Byte) : List WriteRound :=
  (List.range buf.length).map results

theorem write_loop_done (buf_len : Int) (plan : List WriteRound) :
    write_loop buf_len [] plan = (buf_len, []) := by
  rw [write_loop.eq_def, if_pos rfl]

theorem write_loop_timeout (buf_len : Int) (buf : List Byte) (later : List WriteRound)
    (nonempty : buf ≠ []) : write_loop buf_len buf (.timeout :: later) = (-1, []) := by
  rw [write_loop.eq_def, if_neg nonempty]

theorem write_loop_wrote (buf_len n : Int) (buf : List Byte) (later : List WriteRound)
    (nonempty : buf ≠ []) :
    write_loop buf_len buf (.wrote n :: later) =
      if n ≤ 0 then (buf_len - buf.length, [])
      else ((write_loop buf_len (buf.drop n.toNat) later).1,
        buf.take n.toNat ++ (write_loop buf_len (buf.drop n.toNat) later).2) := by
  rw [write_loop.eq_def, if_neg nonempty]

theorem write_loop_take (buf_len : Int) (plan : List WriteRound) (buf : List Byte) (rounds : Nat)
    (enough : buf.length ≤ rounds) :
    write_loop buf_len buf (plan.take rounds) = write_loop buf_len buf plan := by
  induction plan generalizing buf rounds with
  | nil => rw [List.take_nil]
  | cons round later ih =>
      by_cases empty : buf = []
      · rw [empty, write_loop_done, write_loop_done]
      · have size := List.length_pos_iff.mpr empty
        obtain ⟨rounds, rfl⟩ : ∃ less, rounds = less + 1 := ⟨rounds - 1, by omega⟩
        rw [List.take_succ_cons]
        cases round with
        | timeout => rw [write_loop_timeout _ _ _ empty, write_loop_timeout _ _ _ empty]
        | wrote n =>
            rw [write_loop_wrote _ _ _ _ empty, write_loop_wrote _ _ _ _ empty]
            by_cases failed : n ≤ 0
            · rw [if_pos failed, if_pos failed]
            · rw [if_neg failed, if_neg failed, ih]
              rw [List.length_drop]
              omega

theorem write_rounds_ends (buf_len : Int) (fuel : Nat) (results : Nat → WriteRound)
    (buf : List Byte) (enough : buf.length < fuel) :
    write_rounds buf_len fuel results buf =
      some (write_loop buf_len buf (asked results buf)) := by
  induction fuel generalizing results buf with
  | zero => exact absurd enough (Nat.not_lt_zero _)
  | succ fuel ih =>
      unfold write_rounds asked
      by_cases empty : buf = []
      · rw [if_pos empty, empty, write_loop_done]
      · have size := List.length_pos_iff.mpr empty
        obtain ⟨rounds, length⟩ : ∃ less, buf.length = less + 1 := ⟨buf.length - 1, by omega⟩
        rw [if_neg empty, length, List.range_succ_eq_map, List.map_cons, List.map_map]
        cases results 0 with
        | timeout => rw [write_loop_timeout _ _ _ empty]
        | wrote n =>
            rw [write_loop_wrote _ _ _ _ empty]
            dsimp only
            by_cases failed : n ≤ 0
            · rw [if_pos failed, if_pos failed, length]
            · -- The shifted results are longer than what is left can ask for.
              have left : (buf.drop n.toNat).length ≤ rounds := by
                rw [List.length_drop]
                omega
              have plan : asked (fun round => results (round + 1)) (buf.drop n.toNat) =
                  ((List.range rounds).map (results ∘ Nat.succ)).take
                    (buf.drop n.toNat).length := by
                rw [asked, ← List.map_take, List.take_range, Nat.min_eq_left left]
                rfl
              rw [if_neg failed, if_neg failed, ih _ _ (by omega), plan,
                write_loop_take _ _ _ _ (Nat.le_refl _)]
              rfl

theorem written_cut (sent : Sent) (cut : sent.Cut) (header : sent.header ≠ []) :
    sent.written ≠ sent.response := by
  have size := List.length_pos_iff.mpr header
  have less : sent.written.length < sent.response.length := by
    unfold Sent.written Sent.response send_result
    rw [if_neg (by omega), List.length_append]
    dsimp only
    split
    · rename_i head
      have short := mt (writen_whole _ _).mpr head
      rw [writen_written, List.length_take]
      omega
    · rename_i head
      have all := (writen_whole _ _).mp (not_not.mp head)
      have short : room sent.bodyPlan < sent.body.length := cut.resolve_left (by omega)
      split <;>
        (rw [writen_written, writen_written, List.length_append, List.length_take,
          List.length_take]
         omega)
  intro same
  rw [same] at less
  exact Nat.lt_irrefl _ less

theorem ret_zero (sent : Sent) (header : sent.header ≠ []) : sent.ret = 0 ↔ ¬ sent.Cut := by
  rw [← ret_negative sent header]
  have size := List.length_pos_iff.mpr header
  unfold Sent.ret send_result
  rw [if_neg (by omega)]
  dsimp only
  split
  · dsimp only
    decide
  · split <;> (dsimp only; decide)

def calling (header body : List Byte) (heads tails : Nat → WriteRound) : Sent :=
  ⟨header, body, asked heads header, asked tails body⟩

structure Delivers (header body : List Byte) (heads tails : Nat → WriteRound) : Prop where
  headEnds : ∃ rounds, write_rounds header.length rounds heads header =
    some (writen_timeout header (asked heads header))
  bodyEnds : ∃ rounds, write_rounds body.length rounds tails body =
    some (writen_timeout body (asked tails body))
  success : (calling header body heads tails).ret = 0 ↔
    (calling header body heads tails).written = header ++ body
  failure : (calling header body heads tails).ret ≠ 0 →
    (calling header body heads tails).written <+: header ++ body ∧
      (calling header body heads tails).written ≠ header ++ body

/-- Success is reported exactly where everything has gone out; otherwise a proper front has. -/
theorem send_result_exact (header body : List Byte) (heads tails : Nat → WriteRound)
    (nonempty : header ≠ []) : Delivers header body heads tails := by
  have uncut := ret_zero (calling header body heads tails) nonempty
  constructor
  · exact ⟨_, write_rounds_ends _ _ heads header (Nat.lt_succ_self _)⟩
  · exact ⟨_, write_rounds_ends _ _ tails body (Nat.lt_succ_self _)⟩
  · rw [uncut]
    constructor
    · exact written_uncut _ nonempty
    · exact fun whole cut => written_cut _ cut nonempty whole
  · intro fails
    rw [ne_eq, uncut, not_not] at fails
    exact ⟨written_front _, written_cut _ fails nonempty⟩

/-- A header in two writes, and a body of which the first half goes out. -/
theorem send_result_exact_half :
    (calling (text "ab") (text "cd") (fun _ => .wrote 1)
      (fun round => if round = 0 then .wrote 1 else .timeout)).written = text "abc" ∧
    Delivers (text "ab") (text "cd") (fun _ => .wrote 1)
      (fun round => if round = 0 then .wrote 1 else .timeout) :=
  ⟨by decide, send_result_exact _ _ _ _ (by decide)⟩

end AsrServer.Reply
