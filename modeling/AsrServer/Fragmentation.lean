import AsrServer.Framing

/-!
Successive calls of `recv_request` on one connection against `frames`, the
messages taken off the front of the stream one after the other. For a stream
without zero bytes the two agree call by call, so how the kernel cuts the
stream into reads is not observable.
-/

namespace AsrServer.Fragmentation

open Bytes ReadPath Framing

/-- The first `count` messages of a byte string, up to one that ends it. -/
def frames (info : List Byte → Option Int) : Nat → List Byte → List (Outcome × List Byte)
  | 0, _ => []
  | count + 1, bytes =>
      frame info bytes ::
        if (frame info bytes).1.rearmed then frames info count (frame info bytes).2 else []

theorem calls_frames (info : List Byte → Option Int) (count : Nat) (conn : Conn)
    (flowing : conn.Flowing) (clean : 0 ∉ conn.unread)
    (fits : ∀ call ∈ calls info count conn, CallFits info call.before) :
    (calls info count conn).map Call.observed = frames info count conn.pending := by
  induction count generalizing conn with
  | zero => rfl
  | succ count ih =>
      cases ran : recv_request info conn with
      | mk outcome after =>
          simp only [calls, ran, List.mem_cons, forall_eq_or_imp] at fits
          have spec := recv_spec info conn after outcome ran (clean_of_unread _ _ clean) fits.1
          simp only [calls, frames, ran, List.map_cons, Call.observed, spec.exact flowing,
            List.cons.injEq, true_and]
          by_cases rearmed : outcome.rearmed = true
          · simp only [rearmed, ↓reduceIte] at fits ⊢
            obtain ⟨taken, split⟩ := recv_unread info conn
            rw [ran] at split
            refine ih after (spec.flows flowing) ?_ fits.2
            intro zero
            exact clean (by rw [split]; exact List.mem_append_right _ zero)
          · simp only [rearmed, Bool.false_eq_true, ↓reduceIte, List.map_nil]

theorem frames_suffix (info : List Byte → Option Int) (count : Nat) (bytes : List Byte)
    (shown : Outcome × List Byte) (member : shown ∈ frames info count bytes) :
    shown.2 <:+ bytes := by
  induction count generalizing bytes with
  | zero => cases member
  | succ count ih =>
      rcases List.mem_cons.mp member with first | later
      · exact first ▸ frame_suffix info bytes
      · split at later
        · exact (ih _ later).trans (frame_suffix info bytes)
        · cases later

/-- Two fragmentations of one stream without zero bytes show the same headers,
verdicts and bodies, and leave the same suffix of the stream after each call. -/
theorem fragmentation_independent (info : List Byte → Option Int) (stream : List Byte)
    (first second : List Nat) (count : Nat) (clean : 0 ∉ stream)
    (firstFlows : (Conn.fresh stream first).Flowing)
    (secondFlows : (Conn.fresh stream second).Flowing)
    (firstFits : ∀ call ∈ calls info count (Conn.fresh stream first), LengthsFit info call.before)
    (secondFits : ∀ call ∈ calls info count (Conn.fresh stream second),
      LengthsFit info call.before) :
    (calls info count (Conn.fresh stream first)).map Call.observed =
        (calls info count (Conn.fresh stream second)).map Call.observed ∧
      ∀ call ∈ calls info count (Conn.fresh stream first), call.after.pending <:+ stream := by
  have left := calls_frames info count (Conn.fresh stream first) firstFlows clean
    (fun call member => lengths_fit info _ (firstFits call member))
  have right := calls_frames info count (Conn.fresh stream second) secondFlows clean
    (fun call member => lengths_fit info _ (secondFits call member))
  refine ⟨left.trans right.symm, ?_⟩
  intro call member
  have shown := List.mem_map_of_mem (f := Call.observed) member
  rw [left] at shown
  exact frames_suffix info count stream _ shown

theorem fragmentation_independent_example :
    (calls (RequestHeader.GetInfo 0) 3 (Conn.fresh
        (text "POST /request HTTP/1.1\r\nContent-Length:2\r\n\r\nokGET\r\n\r\n")
        (List.replicate 60 1))).map Call.observed =
      (calls (RequestHeader.GetInfo 0) 3 (Conn.fresh
        (text "POST /request HTTP/1.1\r\nContent-Length:2\r\n\r\nokGET\r\n\r\n")
        (List.replicate 60 512))).map Call.observed :=
  (fragmentation_independent (RequestHeader.GetInfo 0) _ (List.replicate 60 1)
    (List.replicate 60 512) 3 (by decide) ⟨by decide, by decide⟩ ⟨by decide, by decide⟩
    (by decide +kernel) (by decide +kernel)).1

end AsrServer.Fragmentation
