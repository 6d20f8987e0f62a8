import AsrServer.Framing
import AsrServer.RequestForm

/-!
The body of a submitted worker against the bytes of the stream. Both read loops
append a C string but count the bytes `read` returned, so a zero byte cuts the
worker's request short while the count goes on. The offset of the terminator
and the length still missing are computed in `int`, and the length is the one
that `GetInfo` stores, which need not be that of the header's field. Where none
of this happens, the request is the stream's bytes right behind the header's
terminator, as many as the field says.
-/

namespace AsrServer.BodyIntegrity

open Bytes RequestHeader ReadPath Framing Numbers
open RequestForm (FirstLength Proper)
open ResponseFragments (lengthMark)
open ChunkedContent (crlf)

/-- A submitted request has the length of its header's `Content-Length` field
and is what follows the header's terminator in the stream. -/
def BodyIntact (stream : List Byte) (call : Call) : Prop :=
  ∀ http request, call.outcome = .submitted http request →
    FirstLength http request.length ∧
      ∃ later, stream.drop (call.start stream) = http ++ crlfcrlf ++ request ++ later

/-- The reads of a call return no zero byte, the two `int` computations of the
read path, the offset of the terminator and the length still missing, lose
nothing, and a length that `GetInfo` takes from the header is that of the
field. -/
structure ReadsExactly (before : Byte) (call : Call) : Prop where
  clean : CleanReads call.before call.after
  offset : ∀ head tail, call.before.pending.dropInfix? crlfcrlf = some (head, tail) →
    head.length < 2 ^ 31
  missing : CallFits (GetInfo before) call.before
  declared : ∀ head tail length, call.before.pending.dropInfix? crlfcrlf = some (head, tail) →
    GetInfo before head = some length → FirstLength head length

theorem nextHeader_complete (bytes http rest : List Byte)
    (offset : ∀ head tail, bytes.dropInfix? crlfcrlf = some (head, tail) → head.length < 2 ^ 31)
    (opened : nextHeader bytes = (.complete http, rest)) :
    bytes.dropInfix? crlfcrlf = some (http, rest) := by
  unfold nextHeader at opened
  cases found : bytes.dropInfix? crlfcrlf with
  | none => simp [cut_missing bytes found] at opened
  | some parts =>
      obtain ⟨head, tail⟩ := parts
      have small := offset head tail found
      have split := Occurrence.split_text _ _ _ _ found
      rw [cut_found _ _ _ found, toInt_eq _ (by omega) (by omega), if_pos (by omega)] at opened
      split at opened
      · cases opened
      · simp only [Option.getD_some, Prod.mk.injEq, HeaderResult.complete.injEq] at opened
        have size : ((head.length : Int) + 4).toNat = (head ++ crlfcrlf).length := by
          simp only [List.length_append, crlfcrlf_length]
          omega
        rw [size, Int.toNat_natCast, split, List.append_assoc, List.take_left,
          ← List.append_assoc, List.drop_left] at opened
        rw [opened.1, opened.2]

theorem frame_submitted (info : List Byte → Option Int) (bytes http request rest : List Byte)
    (offset : ∀ head tail, bytes.dropInfix? crlfcrlf = some (head, tail) → head.length < 2 ^ 31)
    (framed : frame info bytes = (.submitted http request, rest)) :
    info http = some (request.length : Int) ∧
      bytes.dropInfix? crlfcrlf = some (http, request ++ rest) := by
  unfold frame at framed
  split at framed
  · cases framed
  · cases framed
  · rename_i head after opened
    split at framed
    · cases framed
    · rename_i length accepted
      split at framed
      · cases framed
      · rename_i count body last taken
        split at framed
        · rename_i whole
          subst whole
          simp only [Prod.mk.injEq, Outcome.submitted.injEq] at framed
          obtain ⟨⟨sameHead, sameBody⟩, sameRest⟩ := framed
          subst sameHead sameBody sameRest
          obtain ⟨body, size⟩ := nextBody_complete after _ _ count taken
          constructor
          · rw [verdict_info info head count accepted, size]
          · rw [← body]
            exact nextHeader_complete bytes head after offset opened
        · cases framed

/-- In a run whose calls all read exactly, every submitted request is intact. -/
theorem body_integrity (before : Byte) (stream : List Byte) (plan : List Nat) (count : Nat)
    (reads : ∀ call ∈ calls (GetInfo before) count (Conn.fresh stream plan),
      ReadsExactly before call) :
    ∀ call ∈ calls (GetInfo before) count (Conn.fresh stream plan), BodyIntact stream call := by
  intro call member http request submitted
  obtain ⟨read, suffix⟩ := calls_taken (GetInfo before) count (Conn.fresh stream plan)
    (fun call member => (reads call member).clean)
    (fun call member => (reads call member).missing) call member
  have framed := read.taken (by rw [submitted]; rfl)
  rw [submitted] at framed
  obtain ⟨accepted, found⟩ := frame_submitted (GetInfo before) _ http request _
    (reads call member).offset framed
  refine ⟨(reads call member).declared _ _ _ found accepted, call.after.pending, ?_⟩
  have layout := Occurrence.split_text _ _ _ _ found
  rw [← List.append_assoc] at layout
  rw [← layout]
  obtain ⟨front, split⟩ := suffix
  have whole : stream = front ++ call.before.pending := split.symm
  unfold Call.start
  conv_lhs => rw [whole]
  rw [List.length_append, Nat.add_sub_cancel, List.drop_left]

/-- What `GetInfo` stores is the field's length where the first `Content-Length:` begins a line
and only digits follow it. -/
theorem declared_length (before : Byte) (header ahead digits : List Byte) (length : Int)
    (found : header.dropInfix? lengthMark = some (ahead, digits)) (ends : crlf <:+ ahead)
    (written : digits ≠ []) (plain : ∀ char ∈ digits, isDigit char = true)
    (fits : decimal digits < 2 ^ 31) (accepted : GetInfo before header = some length) :
    FirstLength header length := by
  let numeral : Numeral := ⟨[], [], digits, List.forall_mem_nil _, Or.inl rfl, plain, written⟩
  have proper : Proper numeral := ⟨List.forall_mem_nil _, rfl, fits⟩
  have bytes : digits = numeral.bytes ++ [] := by simp [numeral, Numeral.bytes]
  have stops : Stops isDigit [] := by
    intro char first
    cases first
  have there : find header lengthMark = some ahead.length := by rw [find, found]
  obtain ⟨_, loose⟩ := (RequestForm.GetInfo_iff before header length).mp accepted
  rw [there, RequestForm.loose_stored before header ahead digits
    (Occurrence.split_text _ _ _ _ found), bytes] at loose
  rw [bytes] at found
  have stored := RequestForm.proper_stored numeral [] proper stops
  have first := RequestForm.proper_first header ahead [] numeral proper found ends stops
  exact (RequestForm.shared_agrees stored first length).mp loose

/-- A body of three bytes with a zero in the middle, read on its own, is
submitted as one byte. -/
theorem zero_byte_cuts_request :
    ¬ ∀ call ∈ calls (GetInfo 0) 1 (Conn.fresh
        (text "POST /request HTTP/1.1\r\nContent-Length:3\r\n\r\n" ++ [97, 0, 98]) [44, 3]),
      BodyIntact
        (text "POST /request HTTP/1.1\r\nContent-Length:3\r\n\r\n" ++ [97, 0, 98]) call := by
  intro intact
  have submitted : (recv_request (GetInfo 0) (Conn.fresh
      (text "POST /request HTTP/1.1\r\nContent-Length:3\r\n\r\n" ++ [97, 0, 98]) [44, 3])).1 =
      .submitted (text "POST /request HTTP/1.1\r\nContent-Length:3") [97] := by
    decide +kernel
  have three := declared_length 0 (text "POST /request HTTP/1.1\r\nContent-Length:3")
    (text "POST /request HTTP/1.1\r\n") (text "3") 3 (by decide +kernel) (by decide +kernel)
    (by decide) (List.forall_mem_singleton.mpr rfl) (by decide) (by decide +kernel)
  have one := (intact _ (List.mem_cons_self ..) _ _ submitted).1
  exact absurd (one.unique three) (by decide)

theorem reads_exactly (before : Byte) (call : Call) (ahead digits : List Byte)
    (clean : 0 ∉ call.before.unread) (small : call.before.pending.length < 2 ^ 31)
    (fits : LengthsFit (GetInfo before) call.before)
    (header : (call.before.pending.dropInfix? crlfcrlf).map Prod.fst =
      some (ahead ++ lengthMark ++ digits))
    (found : (ahead ++ lengthMark ++ digits).dropInfix? lengthMark = some (ahead, digits))
    (ends : crlf <:+ ahead) (written : digits ≠ [])
    (plain : ∀ char ∈ digits, isDigit char = true) (bounded : decimal digits < 2 ^ 31) :
    ReadsExactly before call where
  clean := clean_of_unread _ _ clean
  offset := by
    intro head tail split
    have lengths := congrArg List.length (Occurrence.split_text _ _ _ _ split)
    simp only [List.length_append] at lengths
    omega
  missing := lengths_fit (GetInfo before) call.before fits
  declared := by
    intro head tail length split accepted
    rw [split, Option.map_some, Option.some.injEq] at header
    subst header
    exact declared_length before _ ahead digits length found ends written plain bounded accepted

theorem body_integrity_two_requests :
    (calls (GetInfo 0) 2 (Conn.fresh
        (text ("POST /request HTTP/1.1\r\nContent-Length:3\r\n\r\nabc" ++
          "POST /request HTTP/1.1\r\nContent-Length:1\r\n\r\nd")) [60, 40])).map Call.outcome =
      [.submitted (text "POST /request HTTP/1.1\r\nContent-Length:3") (text "abc"),
        .submitted (text "POST /request HTTP/1.1\r\nContent-Length:1") (text "d")] ∧
    ∀ call ∈ calls (GetInfo 0) 2 (Conn.fresh
        (text ("POST /request HTTP/1.1\r\nContent-Length:3\r\n\r\nabc" ++
          "POST /request HTTP/1.1\r\nContent-Length:1\r\n\r\nd")) [60, 40]),
      BodyIntact
        (text ("POST /request HTTP/1.1\r\nContent-Length:3\r\n\r\nabc" ++
          "POST /request HTTP/1.1\r\nContent-Length:1\r\n\r\nd")) call := by
  have checked : ∀ call ∈ calls (GetInfo 0) 2 (Conn.fresh
      (text ("POST /request HTTP/1.1\r\nContent-Length:3\r\n\r\nabc" ++
        "POST /request HTTP/1.1\r\nContent-Length:1\r\n\r\nd")) [60, 40]),
      0 ∉ call.before.unread ∧ call.before.pending.length < 2 ^ 31 ∧
        LengthsFit (GetInfo 0) call.before ∧ ∃ digits ∈ [text "3", text "1"],
          (call.before.pending.dropInfix? crlfcrlf).map Prod.fst =
              some (text "POST /request HTTP/1.1\r\n" ++ lengthMark ++ digits) ∧
            (text "POST /request HTTP/1.1\r\n" ++ lengthMark ++ digits).dropInfix? lengthMark =
              some (text "POST /request HTTP/1.1\r\n", digits) ∧
            digits ≠ [] ∧ (∀ char ∈ digits, isDigit char = true) ∧ decimal digits < 2 ^ 31 := by
    decide +kernel
  refine ⟨by decide +kernel, ?_⟩
  apply body_integrity
  intro call member
  obtain ⟨clean, small, fits, digits, _, header, found, written, plain, bounded⟩ :=
    checked call member
  exact reads_exactly 0 call (text "POST /request HTTP/1.1\r\n") digits clean small fits header
    found (by decide +kernel) written plain bounded

end AsrServer.BodyIntegrity
