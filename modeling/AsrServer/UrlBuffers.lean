import AsrServer.UrlCode

/-!
URL text in the memory it is kept in: the encoders append to a string they are given, and the
C decoders move a pointer over a slice and write into a buffer of `max_len` bytes. The
pointer test of an escape is `url + 2 <= url_end`, where the string decoder asks for
`i + 2 < len`.
-/

namespace AsrServer.UrlBuffers

open Bytes UrlCode

/-- `output += s` for each byte of the input. -/
def URLEncode (input output : List Byte) : List Byte :=
  input.foldl (fun output char => output ++ escape char) output

def URLCode (input : List Byte) : List Byte :=
  input.foldl (fun conv_words char => conv_words ++ escape char) []

/-- The locals of a decoder, as offsets from where they start, and the buffer. -/
structure Locals where
  url : Nat
  dst_uri : Nat
  dst : List Byte
deriving Repr, DecidableEq

def decode_round (memory : List Byte) (url_end : Int) (locals : Locals) : Locals :=
  if memory.getD locals.url 0 = 43 then
    { url := locals.url + 1, dst_uri := locals.dst_uri + 1,
      dst := locals.dst.set locals.dst_uri 32 }
  else if memory.getD locals.url 0 = 37 ∧ (locals.url : Int) + 2 ≤ url_end ∧
      isxdigit (memory.getD (locals.url + 1) 0) ∧ isxdigit (memory.getD (locals.url + 2) 0) then
    { url := locals.url + 3, dst_uri := locals.dst_uri + 1,
      dst := locals.dst.set locals.dst_uri (unhex (memory.getD (locals.url + 1) 0) <<< 4 |||
        unhex (memory.getD (locals.url + 2) 0)) }
  else
    { url := locals.url + 1, dst_uri := locals.dst_uri + 1,
      dst := locals.dst.set locals.dst_uri (memory.getD locals.url 0) }

/-- The loop, with `dst_end - dst_uri` as the number of rounds there is room for. -/
def decode_rounds (memory : List Byte) (url_end : Int) : Nat → Locals → Locals
  | 0, locals => locals
  | room + 1, locals =>
      if (locals.url : Int) < url_end then
        decode_rounds memory url_end room (decode_round memory url_end locals)
      else locals

structure Decoded where
  dst : List Byte
  returned : Int
deriving Repr, DecidableEq

def url_utf8_decode (url : List Byte) (url_len : Int) (dst : List Byte) (max_len : Nat) :
    Decoded :=
  let last := decode_rounds url url_len (max_len - 1) { url := 0, dst_uri := 0, dst := dst }
  { dst := last.dst.set last.dst_uri 0, returned := last.dst_uri }

/-- The same text under another name in the source. -/
def url_utf16_decode (url : List Byte) (url_len : Int) (dst : List Byte) (max_len : Nat) :
    Decoded :=
  let last := decode_rounds url url_len (max_len - 1) { url := 0, dst_uri := 0, dst := dst }
  { dst := last.dst.set last.dst_uri 0, returned := last.dst_uri }

/-! The encoders. -/

theorem append_escapes (input output : List Byte) :
    input.foldl (fun output char => output ++ escape char) output =
      output ++ UrlCode.URLEncode input := by
  induction input generalizing output with
  | nil => simp [UrlCode.URLEncode]
  | cons char rest ih =>
      rw [List.foldl_cons, ih, UrlCode.URLEncode, UrlCode.URLEncode, List.flatMap_cons,
        List.append_assoc]

/-- What is encoded is appended, and it is read back ahead of any text. -/
theorem url_code_round_trip (input output : List Byte) :
    URLEncode input output = output ++ URLCode input ∧
      URLDecode (URLCode input) = input ∧
      ∀ text, URLDecode (URLCode input ++ text) = input ++ URLDecode text := by
  have code : URLCode input = UrlCode.URLEncode input := append_escapes input []
  rw [code]
  refine ⟨append_escapes input output, ?_, decode_encode input⟩
  have alone := decode_encode input []
  rwa [List.append_nil, URLDecode, List.append_nil] at alone

/-! Rounds. The loop stops for good, so rounds can be taken in two parts. -/

theorem rounds_stopped (memory : List Byte) (url_end : Int) (room : Nat) (locals : Locals)
    (stopped : url_end ≤ locals.url) : decode_rounds memory url_end room locals = locals := by
  cases room with
  | zero => rfl
  | succ room => rw [decode_rounds, if_neg (by omega)]

theorem rounds_add (memory : List Byte) (url_end : Int) (first later : Nat) (locals : Locals) :
    decode_rounds memory url_end (first + later) locals =
      decode_rounds memory url_end later (decode_rounds memory url_end first locals) := by
  induction first generalizing locals with
  | zero => rw [Nat.zero_add, decode_rounds]
  | succ first ih =>
      rw [Nat.succ_add, decode_rounds, decode_rounds]
      split
      · exact ih _
      · rename_i stopped
        exact (rounds_stopped memory url_end later locals (by omega)).symm

theorem set_next (front back : List Byte) (char : Byte) (room : 0 < back.length) :
    (front ++ back).set front.length char = (front ++ [char]) ++ back.drop 1 := by
  cases back with
  | nil => cases room
  | cons old rest => simp

theorem round_character (memory : List Byte) (url_end : Int) (url : Nat)
    (front back : List Byte) (room : 0 < back.length) :
    decode_round memory url_end ⟨url, front.length, front ++ back⟩ =
      let taken := character (memory.drop url) (url_end - url)
      ⟨url + taken.1, (front ++ [taken.2]).length, (front ++ [taken.2]) ++ back.drop 1⟩ := by
  have head (offset : Nat) : (memory.drop url).getD offset 0 = memory.getD (url + offset) 0 := by
    simp [List.getD_eq_getElem?_getD, List.getElem?_drop]
  have length (char : Byte) : (front ++ [char]).length = front.length + 1 := by
    simp
  have test : 2 ≤ url_end - url ↔ (url : Int) + 2 ≤ url_end := by
    omega
  simp only [decode_round, character, head, Nat.add_zero, test, length, set_next front back _ room]
  split
  · rfl
  · split
    · rfl
    · rfl

/-- The loop writes what the decoder of a text in memory computes. -/
theorem rounds_written (memory : List Byte) (url_end : Int) (room url : Nat)
    (front back : List Byte) (fits : room ≤ back.length) :
    ∃ last, decode_rounds memory url_end room ⟨url, front.length, front ++ back⟩ =
      let written := decode_loop room (memory.drop url) (url_end - url)
      ⟨last, (front ++ written).length, (front ++ written) ++ back.drop written.length⟩ := by
  induction room generalizing url front back with
  | zero => exact ⟨url, by simp [decode_rounds, decode_loop]⟩
  | succ room ih =>
      by_cases more : (url : Int) < url_end
      · rw [decode_rounds, if_pos more, round_character _ _ _ _ _ (by omega),
          decode_loop_character _ _ _ (by omega)]
        generalize taken : character (memory.drop url) (url_end - url) = step
        obtain ⟨last, rounds⟩ := ih (url + step.1) (front ++ [step.2]) (back.drop 1)
          (by rw [List.length_drop]; omega)
        have ahead : url_end - ((url + step.1 : Nat) : Int) = url_end - url - step.1 := by
          omega
        rw [← List.drop_drop, ahead] at rounds
        refine ⟨last, rounds.trans ?_⟩
        simp [List.drop_drop, Nat.add_comm]
      · rw [rounds_stopped _ _ _ _ (by simpa using more), decode_loop, if_neg (by omega)]
        exact ⟨url, by simp⟩

/-- Where a decoder stands in its input and its buffer, the first bytes having been written. -/
def between (url : Nat) (written back : List Byte) : Locals :=
  ⟨url, written.length, written ++ back.drop written.length⟩

theorem round_between (passed text tail written back : List Byte) (url_end : Int)
    (room : written.length < back.length) :
    decode_round (passed ++ text ++ tail) url_end (between passed.length written back) =
      let taken := character (text ++ tail) (url_end - passed.length)
      between (passed.length + taken.1) (written ++ [taken.2]) back := by
  have round := round_character (passed ++ text ++ tail) url_end passed.length written
    (back.drop written.length) (by rw [List.length_drop]; omega)
  rw [List.append_assoc, List.drop_left, ← List.append_assoc, List.drop_drop] at round
  simpa [between] using round

/-- The loop passes the characters of a text whose end no escape reaches over. -/
theorem rounds_pass (passed text tail written back : List Byte) (url_end : Int)
    (covers : (passed.length + text.length : Int) ≤ url_end)
    (closed : Closed text tail (url_end - passed.length)) (number : Nat)
    (within : number ≤ (URLDecode text).length)
    (fits : written.length + number ≤ back.length) :
    ∃ url ≤ passed.length + text.length,
      (number = (URLDecode text).length → url = passed.length + text.length) ∧
      decode_rounds (passed ++ text ++ tail) url_end number (between passed.length written back) =
        between url (written ++ (URLDecode text).take number) back := by
  -- A character at a time: a round takes one and writes its byte.
  induction text using character_induction generalizing passed written number with
  | nil =>
      have zero : number = 0 := by simpa [URLDecode] using within
      subst zero
      exact ⟨passed.length, by simp, by simp, by simp [decode_rounds, URLDecode]⟩
  | step part char later leads ih =>
      have proper := leads.proper
      rw [List.length_append] at covers
      rw [leads.decoded] at within ⊢
      cases number with
      | zero => exact ⟨passed.length, by simp, by simp, by simp [decode_rounds]⟩
      | succ number =>
          have ahead : ((passed ++ part).length : Int) = passed.length + part.length := by simp
          obtain ⟨url, bound, whole, rounds⟩ := ih (passed ++ part) (written ++ [char])
            (by omega) (by rw [ahead, ← sub_sub]; exact closed.rest) number
            (by simpa using within) (by simp; omega)
          refine ⟨url, by simp at bound ⊢; omega, ?_, ?_⟩
          · rw [List.length_cons]
            intro same
            rw [whole (by omega)]
            simp [Nat.add_assoc]
          · rw [decode_rounds, if_pos (by simp [between]; omega),
              round_between _ _ _ _ _ _ (by omega),
              leads.taken tail _ (by rw [List.length_append]; omega) closed]
            simpa using rounds

theorem rounds_closed (text tail dst : List Byte) (room : Nat) (fits : room ≤ dst.length)
    (closed : Closed text tail text.length) :
    ∃ url ≤ text.length, decode_rounds (text ++ tail) text.length room ⟨0, 0, dst⟩ =
      between url ((URLDecode text).take room) dst := by
  rcases Nat.le_total room (URLDecode text).length with short | long
  · obtain ⟨url, bound, _, rounds⟩ := rounds_pass [] text tail [] dst text.length (by simp)
      (by simpa using closed) room short (by simpa using fits)
    exact ⟨url, by simpa using bound, by simpa [between] using rounds⟩
  · obtain ⟨url, _, whole, rounds⟩ := rounds_pass [] text tail [] dst text.length (by simp)
      (by simpa using closed) (URLDecode text).length le_rfl (by simp; omega)
    have finished : url = text.length := by simpa using whole rfl
    subst finished
    refine ⟨text.length, le_rfl, ?_⟩
    rw [← Nat.add_sub_cancel' long, rounds_add]
    have first : decode_rounds (text ++ tail) text.length (URLDecode text).length ⟨0, 0, dst⟩ =
        between text.length (URLDecode text) dst := by
      simpa [between] using rounds
    rw [first, rounds_stopped _ _ _ _ (by simp [between]), Nat.add_sub_cancel' long,
      List.take_of_length_le long]

def terminated (written dst : List Byte) : Decoded :=
  { dst := written ++ 0 :: dst.drop (written.length + 1), returned := written.length }

theorem between_terminated (url : Nat) (written dst : List Byte)
    (room : written.length < dst.length) :
    ({ dst := (between url written dst).dst.set (between url written dst).dst_uri 0,
       returned := (between url written dst).dst_uri } : Decoded) = terminated written dst := by
  have last := set_next written (dst.drop written.length) 0 (by rw [List.length_drop]; omega)
  simp only [between, terminated, Decoded.mk.injEq, and_true]
  rw [last, List.drop_drop, List.append_assoc, List.singleton_append]

theorem url_utf8_decode_written (memory : List Byte) (url_len : Int) (dst : List Byte)
    (max_len : Nat) (positive : 1 ≤ max_len) (room : max_len ≤ dst.length) :
    url_utf8_decode memory url_len dst max_len =
      terminated (UrlCode.url_utf8_decode memory url_len max_len) dst := by
  obtain ⟨url, rounds⟩ := rounds_written memory url_len (max_len - 1) 0 [] dst (by omega)
  have short := decode_loop_length (max_len - 1) memory url_len
  unfold url_utf8_decode
  simp only [List.length_nil, List.nil_append, List.drop_zero, Nat.cast_zero, sub_zero] at rounds
  rw [rounds]
  exact between_terminated url (UrlCode.url_utf8_decode memory url_len max_len) dst (by
    unfold UrlCode.url_utf8_decode
    omega)

/-- Ahead of anything but a hexadecimal digit the C decoders are the string decoder, cut to the
room in the buffer. -/
theorem buffer_decoders_agree (text tail dst : List Byte) (max_len : Nat)
    (positive : 1 ≤ max_len) (room : max_len ≤ dst.length)
    (ends : isxdigit (tail.getD 0 0) = false) :
    let written := (URLDecode text).take (max_len - 1)
    url_utf8_decode (text ++ tail) text.length dst max_len =
        { dst := written ++ 0 :: dst.drop (written.length + 1), returned := written.length } ∧
      url_utf16_decode (text ++ tail) text.length dst max_len =
        { dst := written ++ 0 :: dst.drop (written.length + 1), returned := written.length } := by
  have decoded := url_utf8_decode_written (text ++ tail) text.length dst max_len positive room
  rw [UrlCode.url_utf8_decode, decode_loop_eq text tail (max_len - 1) ends] at decoded
  exact ⟨decoded, decoded⟩

theorem buffer_decoders_agree_example :
    let written := (URLDecode [37, 52, 49, 37, 52]).take 2
    url_utf8_decode ([37, 52, 49, 37, 52] ++ [38]) 5 [7, 7, 7, 7] 3 =
        { dst := written ++ 0 :: [7], returned := 2 } ∧
      url_utf16_decode ([37, 52, 49, 37, 52] ++ [38]) 5 [7, 7, 7, 7] 3 =
        { dst := written ++ 0 :: [7], returned := 2 } :=
  buffer_decoders_agree [37, 52, 49, 37, 52] [38] [7, 7, 7, 7] 3 (by decide) (by decide)
    (by decide)

/-! A text that ends inside an escape. The test lets the second digit be the byte behind it. -/

/-- The loop reaches the last escape of a text that ends in the middle of it. -/
def Overlooks (text : List Byte) (max_len : Nat) : Prop :=
  ∃ front digit, text = front ++ [37, digit] ∧ isxdigit digit = true ∧
    (URLDecode front).length < max_len - 1

/-- What stands behind the slice changes nothing, and the pointer does not leave the slice. -/
structure StaysWithin (text : List Byte) (url_len : Int) (max_len : Nat) : Prop where
  utf8 : ∀ one two dst, max_len ≤ dst.length →
    url_utf8_decode (text ++ one) url_len dst max_len =
      url_utf8_decode (text ++ two) url_len dst max_len
  utf16 : ∀ one two dst, max_len ≤ dst.length →
    url_utf16_decode (text ++ one) url_len dst max_len =
      url_utf16_decode (text ++ two) url_len dst max_len
  pointer : ∀ more dst rounds, max_len ≤ dst.length → rounds ≤ max_len - 1 →
    ((decode_rounds (text ++ more) url_len rounds ⟨0, 0, dst⟩).url : Int) ≤ max url_len 0

/-- A number of rounds leaves the same bytes in the buffer, whatever stands behind the slice. -/
theorem rounds_within (text dst : List Byte) (max_len number : Nat) (few : number ≤ max_len - 1)
    (room : max_len ≤ dst.length) (sound : ¬ Overlooks text max_len) :
    ∃ written, written.length ≤ number ∧ ∀ tail, ∃ url ≤ text.length,
      decode_rounds (text ++ tail) text.length number ⟨0, 0, dst⟩ = between url written dst := by
  by_cases dangling : Dangling text
  · obtain ⟨front, digit, rfl, hex⟩ := dangling
    have full : max_len - 1 ≤ (URLDecode front).length := by
      by_contra short
      exact sound ⟨front, digit, rfl, hex, by omega⟩
    refine ⟨(URLDecode front).take number, by simp, fun tail => ?_⟩
    -- The buffer is full before the loop comes to the last percent sign.
    obtain ⟨url, bound, _, rounds⟩ := rounds_pass [] front ([37, digit] ++ tail) [] dst
      (front ++ [37, digit]).length (by simp) (.inl (by rfl)) number (by omega)
      (by simp; omega)
    refine ⟨url, by simp at bound ⊢; omega, ?_⟩
    simpa [between] using rounds
  · refine ⟨(URLDecode text).take number, by simp, fun tail => ?_⟩
    exact rounds_closed text tail dst number (by omega) (.inr ⟨rfl, dangling⟩)

theorem empty_slice (memory : List Byte) (url_len : Int) (number : Nat) (locals : Locals)
    (empty : url_len ≤ 0) : decode_rounds memory url_len number locals = locals :=
  rounds_stopped memory url_len number locals (by omega)

theorem stays_within (text : List Byte) (url_len : Int) (max_len : Nat)
    (size : text.length = url_len.toNat) (positive : 1 ≤ max_len)
    (sound : ¬ Overlooks text max_len) : StaysWithin text url_len max_len := by
  by_cases empty : url_len ≤ 0
  · constructor
    · intro one two dst _
      simp only [url_utf8_decode, empty_slice _ _ _ _ empty]
    · intro one two dst _
      simp only [url_utf16_decode, empty_slice _ _ _ _ empty]
    · intro more dst rounds _ _
      rw [empty_slice _ _ _ _ empty]
      simp
  · have whole : url_len = text.length := by omega
    subst whole
    have same (one two dst : List Byte) (room : max_len ≤ dst.length) :
        url_utf8_decode (text ++ one) text.length dst max_len =
          url_utf8_decode (text ++ two) text.length dst max_len := by
      obtain ⟨written, short, all⟩ :=
        rounds_within text dst max_len (max_len - 1) le_rfl room sound
      have ends (tail : List Byte) : url_utf8_decode (text ++ tail) text.length dst max_len =
          terminated written dst := by
        obtain ⟨url, _, rounds⟩ := all tail
        unfold url_utf8_decode
        rw [rounds]
        exact between_terminated url written dst (by omega)
      rw [ends one, ends two]
    refine ⟨same, same, ?_⟩
    intro more dst rounds room few
    obtain ⟨written, _, all⟩ := rounds_within text dst max_len rounds few room sound
    obtain ⟨url, bound, last⟩ := all more
    rw [last]
    simp only [between]
    omega

theorem overlooks_leaves (text : List Byte) (max_len : Nat) (wrong : Overlooks text max_len) :
    ¬ StaysWithin text text.length max_len := by
  obtain ⟨front, digit, rfl, hex, short⟩ := wrong
  intro within
  have size : (URLDecode front).length + 1 ≤ max_len - 1 := by omega
  have pointer := within.pointer [48] (List.replicate max_len 0)
    ((URLDecode front).length + 1) (by simp) size
  obtain ⟨url, _, whole, rounds⟩ := rounds_pass [] front [37, digit, 48] []
    (List.replicate max_len 0) (front ++ [37, digit]).length (by simp) (.inl (by rfl))
    (URLDecode front).length le_rfl (by simp; omega)
  have passed : url = front.length := by simpa using whole rfl
  -- The rounds come to the escape with two characters left, and read a third one behind the slice.
  subst passed
  have start : decode_rounds (front ++ [37, digit] ++ [48]) (front ++ [37, digit]).length
      (URLDecode front).length ⟨0, 0, List.replicate max_len 0⟩ =
        between front.length (URLDecode front) (List.replicate max_len 0) := by
    simpa [between] using rounds
  have three : character [37, digit, 48] 2 = (3, unhex digit <<< 4 ||| unhex 48) := by
    simp [character, hex]
    decide
  have left : ((front ++ [37, digit]).length : Int) - front.length = 2 := by
    simp
  have last := round_between front [37, digit, 48] [] (URLDecode front)
    (List.replicate max_len 0) (front ++ [37, digit]).length (by simp; omega)
  rw [left, List.append_nil, List.append_nil, three] at last
  have memory : front ++ [37, digit] ++ [48] = front ++ [37, digit, 48] := by simp
  rw [rounds_add, start, decode_rounds, if_pos (by simp [between]), memory, last,
    decode_rounds] at pointer
  simp [between] at pointer
  omega

/-- The decoders stay in their slice exactly when it does not end in the first two characters
of an escape that the buffer has room for. -/
theorem stays_within_iff (text : List Byte) (url_len : Int) (max_len : Nat)
    (size : text.length = url_len.toNat) (positive : 1 ≤ max_len) :
    StaysWithin text url_len max_len ↔ ¬ Overlooks text max_len := by
  constructor
  · intro within wrong
    have whole : url_len = text.length := by
      obtain ⟨front, digit, rfl, _⟩ := wrong
      simp at size ⊢
      omega
    exact overlooks_leaves text max_len wrong (whole ▸ within)
  · exact stays_within text url_len max_len size positive

/-- `a%4` and a buffer with room for the last escape, or for the letter only. -/
theorem stays_within_iff_example :
    ¬ StaysWithin [97, 37, 52] 3 16 ∧ StaysWithin [97, 37, 52] 3 2 := by
  have ends (front : List Byte) (digit : Byte) (same : [97] ++ [37, 52] = front ++ [37, digit]) :
      front = [97] := (List.append_inj' same rfl).1.symm
  constructor
  · rw [stays_within_iff [97, 37, 52] 3 16 (by decide) (by decide), not_not]
    exact ⟨[97], 52, rfl, rfl, by decide⟩
  · rw [stays_within_iff [97, 37, 52] 3 2 (by decide) (by decide)]
    rintro ⟨front, digit, same, _, room⟩
    rw [ends front digit same] at room
    exact absurd room (by decide)

/-- `%4` with a 1 behind it is read as `%41`. -/
theorem leaves_slice :
    ¬ ∀ (text : List Byte) (url_len : Int) (max_len : Nat), text.length = url_len.toNat →
      1 ≤ max_len → StaysWithin text url_len max_len := by
  intro all
  have within := (all [37, 52] 2 16 (by decide) (by decide)).utf8 [49] [38]
    (List.replicate 16 0) (by decide)
  exact absurd within (by decide)

end AsrServer.UrlBuffers
