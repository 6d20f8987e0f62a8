import AsrServer.Delivery
import AsrServer.ReadableReply

/-!
A reply on its way from `send_result` to `readHttpResponse`. The server may get out all of it or
a front of it, in any pieces, and the client may receive that in any pieces; whatever the
client takes for a response is the whole body. It gets every body of up to 20480 bytes, and
only these however the reply is cut up.
-/

namespace AsrServer.AcceptedReply

open Bytes RequestHeader Numbers ChunkedContent HttpResponse ResponseFragments ReadableReply Reply

/-! What the client's loops have read, whatever each `recv` brings. -/

theorem header_loop_front (plan : List Nat) (header unread got : List Byte) (length : Nat)
    (stream : Stream) (found : header_loop header unread plan = some (length, got, stream)) :
    got ++ stream.unread = header ++ unread ∧
      ∃ pos, find got crlfcrlf = some pos ∧ length = pos + 4 := by
  induction plan generalizing header unread with
  | nil => cases found
  | cons size later ih =>
      have whole := received_append size bufSize unread
      rw [header_loop] at found
      split at found
      · cases found
      · dsimp only at found
        split at found
        · rename_i pos here
          cases found
          exact ⟨by rw [List.append_assoc, whole], pos, here, rfl⟩
        · split at found
          · cases found
          · have step := ih _ _ found
            rwa [List.append_assoc, whole] at step

theorem read_nReal_front (plan : List Nat) (len : Nat) (unread bytes : List Byte)
    (stream : Stream) (read : read_nReal_timeout len unread plan = some (bytes, stream)) :
    bytes ++ stream.unread = unread ∧ bytes.length = len := by
  induction plan generalizing len unread bytes with
  | nil =>
      rw [read_nReal_timeout] at read
      split at read
      · rename_i nothing
        cases read
        exact ⟨rfl, nothing.symm⟩
      · cases read
  | cons size later ih =>
      have whole := received_append size len unread
      have count := received_length size len unread
      rw [read_nReal_timeout] at read
      split at read
      · rename_i nothing
        cases read
        exact ⟨rfl, nothing.symm⟩
      · split at read
        · cases read
        · rw [Option.map_eq_some_iff] at read
          obtain ⟨⟨more, last⟩, step, same⟩ := read
          cases same
          obtain ⟨joined, size⟩ := ih _ _ _ step
          constructor
          · rw [List.append_assoc, joined, whole]
          · rw [List.length_append, size, count]
            omega

/-! The header of a reply. -/

section Header

variable (timestr : Timestamp) (len : Nat)

structure Head (before : List Byte) (field : Field (before ++ crlfcrlf)) : Prop where
  header : generate_http_header timestr.bytes len = before ++ crlfcrlf
  first : ∀ left right, before ++ crlfcrlf = left ++ crlfcrlf ++ right → right = []
  unmarked : ¬ chunkedMark <:+: before ++ crlfcrlf
  counted : atoi field.tail = len
  small : before.length + 4 ≤ 4096

theorem header_small (short : len < 2 ^ 31) :
    (generate_http_header timestr.bytes len).length ≤ 4096 := by
  have digits := length_short len short
  have time := timestr.short
  have status : statusLine.length = 15 := by decide
  have mark : lengthMark.length = 15 := by decide
  have name : (text "Date:").length = 5 := by decide
  have type : behind.length = 43 := by decide
  rw [header_parts]
  simp only [ahead, dateLine, List.length_append, status, mark, name, type, crlf_length]
  omega

theorem header_head (short : len < 2 ^ 31) : ∃ before field, Head timestr len before field := by
  obtain ⟨before, ends, _⟩ := header_ends timestr len short
  obtain ⟨same, nearest⟩ := (Occurrence.split_iff _ _ _ _).mp ends
  rw [List.append_nil] at same
  have unmarked := header_unmarked timestr len
  have found := header_field timestr len
  have small := header_small timestr len short
  rw [same] at nearest unmarked found small
  rw [List.length_append, crlfcrlf_length] at small
  have return_first : behind = 13 :: behind.tail := by decide
  obtain ⟨digit, member⟩ := List.exists_mem_of_ne_nil _ (length_some len)
  have written : isSpace digit = false := (digit_plain digit (length_digits len digit member)).1
  refine ⟨before, ⟨_, _, found, digit, List.mem_append_left _ member, written⟩, same, ?_, unmarked,
    ?_, small⟩
  · intro left right other
    have less := nearest left right other
    have lengths := congrArg List.length other
    simp only [List.length_append, crlfcrlf_length] at lengths
    exact List.length_eq_zero_iff.mp (by omega)
  · have counted := atoi_length len short behind.tail
    rwa [← return_first] at counted

end Header

/-! The client takes nothing but the whole body. -/

section Accepted

variable {timestr : Timestamp} {before front : List Byte} {field : Field (before ++ crlfcrlf)}

theorem length_accepted (body : List Byte) (short : body.length < 2 ^ 31)
    (head : Head timestr body.length before field) (starts : front <+: body) (length : Nat)
    (stream : Stream) (result : List Byte) (reaches : before.length + 4 ≤ length)
    (inside : length ≤ (before ++ crlfcrlf ++ front).length)
    (rest : stream.unread = (before ++ crlfcrlf ++ front).drop length)
    (accepted : readHttpConten_Length ((before ++ crlfcrlf ++ front).take length)
      (before.length + 4) stream = (0, result)) : front = body ∧ result = body := by
  have size : (before ++ crlfcrlf).length = before.length + 4 := by simp
  have total : (before ++ crlfcrlf ++ front).length = before.length + 4 + front.length := by
    rw [List.length_append, size]
  have less := starts.length_le
  have pos : find ((before ++ crlfcrlf ++ front).take length) (text "Content-Length:") =
      some field.before.length := (field_found field length reaches).1
  have tail : ((before ++ crlfcrlf ++ front).take length).drop (field.before.length + 15) =
      field.tail ++ front.take (length - (before.length + 4)) :=
    (field_found field length reaches).2
  have ahead := field_inside field
  have within : ¬ before.length + 4 ≤ field.before.length := by omega
  have counted : ((before ++ crlfcrlf ++ front).take length).length = length :=
    List.length_take_of_le inside
  have remain : toSsize (((before.length + 4 : Nat) : Int) + body.length - length) =
      before.length + 4 + body.length - length := by
    have small := head.small
    rw [ChunkRounds.toSsize_eq _ (by omega) (by omega)]
    omega
  simp only [readHttpConten_Length, pos, within, ↓reduceIte, tail, field.value, counted,
    head.counted, remain] at accepted
  rw [if_neg (by omega), if_neg (by omega)] at accepted
  split at accepted
  · split at accepted
    · cases accepted
    · split at accepted
      · cases accepted
      · rename_i bytes later read
        obtain ⟨joined, asked⟩ := read_nReal_front _ _ _ _ _ read
        -- So many bytes are left of the front only where it is the body.
        have left := congrArg List.length (joined.trans rest)
        rw [List.length_append, asked, List.length_drop] at left
        have whole : front = body := starts.eq_of_length (by omega)
        have empty : later.unread = [] := List.length_eq_zero_iff.mp (by omega)
        rw [empty, List.append_nil] at joined
        rw [joined, rest, List.take_append_drop, ← size, List.drop_left] at accepted
        cases accepted
        exact ⟨whole, whole⟩
  · have whole : front = body := starts.eq_of_length (by omega)
    rw [List.take_of_length_le (by omega), ← size, List.drop_left] at accepted
    cases accepted
    exact ⟨whole, whole⟩

theorem front_accepted (body : List Byte) (short : body.length < 2 ^ 31)
    (head : Head timestr body.length before field) (sent : List Byte)
    (starts : sent <+: before ++ crlfcrlf ++ body) (plan : List Nat) (result : List Byte)
    (accepted : readHttpResponse ⟨sent, plan⟩ = some (0, result)) :
    sent = before ++ crlfcrlf ++ body ∧ result = body := by
  have size : (before ++ crlfcrlf).length = before.length + 4 := by simp
  have ends := Occurrence.split_of_first crlfcrlf before body head.first
  cases found : header_loop [] sent plan with
  | none =>
      simp only [readHttpResponse, found] at accepted
      cases accepted
  | some parts =>
      obtain ⟨length, got, stream⟩ := parts
      obtain ⟨joined, pos, here, same⟩ := header_loop_front _ _ _ _ _ _ found
      rw [List.nil_append] at joined
      obtain ⟨rest, whole⟩ := starts
      rw [← whole, ← joined, List.append_assoc] at ends
      -- The client has found the end of the header, so the header is there.
      rcases find_front _ _ _ _ _ ends with ⟨missing, _⟩ | ⟨place, shape, content⟩
      · rw [here] at missing
        cases missing
      · rw [here, Option.some.injEq] at place
        generalize got.drop (before ++ crlfcrlf).length = part at shape
        subst shape place same
        rw [List.append_assoc] at joined
        subst joined
        have more : part ++ stream.unread <+: body := by
          refine ⟨rest, ?_⟩
          rw [List.append_assoc] at whole
          exact List.append_cancel_left whole
        have inside : (before ++ crlfcrlf ++ part).length ≤
            (before ++ crlfcrlf ++ (part ++ stream.unread)).length := by
          simp only [List.length_append]
          omega
        have taken : (before ++ crlfcrlf ++ (part ++ stream.unread)).take
            (before ++ crlfcrlf ++ part).length = before ++ crlfcrlf ++ part := by
          rw [← List.append_assoc, List.take_left]
        have left : (before ++ crlfcrlf ++ (part ++ stream.unread)).drop
            (before ++ crlfcrlf ++ part).length = stream.unread := by
          rw [← List.append_assoc, List.drop_left]
        have reaches : before.length + 4 ≤ (before ++ crlfcrlf ++ part).length := by
          rw [List.length_append, size]
          omega
        have shown : header_loop [] (before ++ crlfcrlf ++ (part ++ stream.unread)) plan = _ :=
          found
        rw [← taken] at shown
        rw [unmarked_skips head.unmarked _ stream.plan reaches plan (by rw [left]; exact shown),
          Option.some.injEq] at accepted
        obtain ⟨all, read⟩ := length_accepted body short head more _ _ result reaches inside
          left.symm (by rw [left] at accepted; exact accepted)
        exact ⟨by rw [all], read⟩

end Accepted

/-! Delivery. -/

section Delivery

variable (timestr : Timestamp) (body : List Byte)

structure Answer (sent : Sent) : Prop where
  header : sent.header = generate_http_header timestr.bytes body.length
  body : sent.body = body

theorem sent_parts (sent : Sent) (answer : Answer timestr body sent) : sent.header ≠ [] ∧
    sent.response = generate_http_header timestr.bytes body.length ++ body := by
  rw [Sent.response, answer.header, answer.body]
  exact ⟨generate_nonempty _ _, rfl⟩

theorem taken_at_once (buf : List Byte) : buf.length ≤ room [.wrote buf.length] := by
  rcases Nat.eq_zero_or_pos buf.length with zero | positive
  · omega
  · rw [room_wrote _ _ (by omega)]
    omega

/-- Whatever goes out and whatever comes in, a result that the client takes for good is the
body, and the server has sent all of it. -/
theorem accepted_whole (short : body.length < 2 ^ 31) (sent : Sent)
    (answer : Answer timestr body sent) (plan : List Nat) (result : List Byte)
    (accepted : readHttpResponse ⟨sent.written, plan⟩ = some (0, result)) :
    sent.ret = 0 ∧ result = body := by
  obtain ⟨before, field, head⟩ := header_head timestr body.length short
  obtain ⟨header, response⟩ := sent_parts timestr body sent answer
  have starts := written_front sent
  rw [response, head.header] at starts
  obtain ⟨whole, read⟩ := front_accepted body short head sent.written starts plan result accepted
  refine ⟨(ret_zero sent header).mpr fun cut => written_cut sent cut header ?_, read⟩
  rw [whole, response, head.header]

/-- The client gets the body of every reply that is sent whole, exactly where the body has
20480 bytes at most. -/
theorem delivered_iff (short : body.length < 2 ^ 31) :
    (∀ sent, Answer timestr body sent → sent.ret = 0 → ∀ plan, Fragments sent.written plan →
      readHttpResponse ⟨sent.written, plan⟩ = some (0, body)) ↔ body.length ≤ bufSize := by
  obtain ⟨before, field, head⟩ := header_head timestr body.length short
  have small := head.small
  have counts : atoi field.tail ≤ body.length := le_of_eq head.counted
  have fits : (before ++ crlfcrlf ++ body).length < 2 ^ 63 := by
    simp only [List.length_append, crlfcrlf_length]
    omega
  have written (sent : Sent) (answer : Answer timestr body sent) (fine : sent.ret = 0) :
      sent.written = before ++ crlfcrlf ++ body := by
    obtain ⟨header, response⟩ := sent_parts timestr body sent answer
    rw [written_uncut sent header ((ret_zero sent header).mp fine), response, head.header]
  constructor
  · intro delivered
    by_contra large
    -- Nothing of the body comes with the header, and then too much is missing.
    have room : 20480 = bufSize := rfl
    obtain ⟨plan, fragments, read⟩ := length_reached head.unmarked field counts fits head.first 0
      (Nat.zero_le _) (by omega)
    let sent : Sent := ⟨generate_http_header timestr.bytes body.length, body,
      [.wrote (generate_http_header timestr.bytes body.length).length], [.wrote body.length]⟩
    have answer : Answer timestr body sent := ⟨rfl, rfl⟩
    have fine : sent.ret = 0 := by
      rw [ret_zero sent (sent_parts timestr body sent answer).1, Sent.Cut, not_or, not_lt, not_lt]
      exact ⟨taken_at_once _, taken_at_once _⟩
    have got := delivered sent answer fine plan
    rw [written sent answer fine, read, lengthOutcome, head.counted, if_pos (by omega)] at got
    cases got fragments
  · intro inside sent answer fine plan fragments
    rw [written sent answer fine] at fragments ⊢
    rcases length_any head.unmarked field counts fits head.first plan fragments with
      ⟨_, missed⟩ | ⟨beyond, within, _, read⟩
    · omega
    · rw [read, lengthOutcome, if_neg, head.counted, Int.toNat_natCast, List.take_length]
      rw [head.counted]
      omega

end Delivery

def pieces : Sent :=
  calling (generate_http_header epoch.bytes 2) (text "ok") (fun _ => .wrote 100) (fun _ => .wrote 1)

theorem accepted_whole_epoch :
    readHttpResponse ⟨pieces.written, List.replicate 200 1⟩ = some (0, text "ok") ∧
      pieces.ret = 0 := by
  have read : readHttpResponse ⟨pieces.written, List.replicate 200 1⟩ = some (0, text "ok") := by
    decide +kernel
  exact ⟨read, (accepted_whole epoch (text "ok") (by decide) pieces ⟨rfl, rfl⟩ _ _ read).1⟩

theorem delivered_iff_epoch : (text "ok").length ≤ bufSize ∧
    ∀ sent, Answer epoch (text "ok") sent → sent.ret = 0 → ∀ plan, Fragments sent.written plan →
      readHttpResponse ⟨sent.written, plan⟩ = some (0, text "ok") :=
  ⟨by decide, (delivered_iff epoch (text "ok") (by decide)).mpr (by decide)⟩

end AsrServer.AcceptedReply
