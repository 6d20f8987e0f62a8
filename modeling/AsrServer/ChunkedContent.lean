import AsrServer.UrlCode

/-!
`ParseHttpContentChunk`: a parser that is called again each time bytes have come in.
What it has understood it moves from `input` to `result`, a whole chunk at a time; the
rest stays in `input` for the next call. A message is given by its parts, so that how
a size is spelled and what the trailer says are open.
-/

namespace AsrServer.ChunkedContent

open Bytes RequestHeader UrlCode

def crlf : List Byte := text "\r\n"

@[simp] theorem crlf_length : crlf.length = 2 := by decide

def hexValue (digits : List Byte) : Nat :=
  digits.foldl (fun value digit => value * 16 + (unhex digit).toNat) 0

/-- `str_stream >> std::hex >> chunk_size` into a `size_t` that is 0: an optional sign
and `0x`, then digits; no digits leave 0, too many the largest value. -/
def hexSize (line : List Byte) : Nat :=
  let start := skipSpace line
  let negative := start.head? == some 45
  let unsigned := if negative || start.head? == some 43 then start.drop 1 else start
  let digits := match unsigned with
    | 48 :: mark :: rest => if mark = 120 ∨ mark = 88 then rest else unsigned
    | _ => unsigned
  let value := hexValue (digits.takeWhile isxdigit)
  if 2 ^ 64 ≤ value then 2 ^ 64 - 1
  else if negative then (2 ^ 64 - value) % 2 ^ 64
  else value

/-- The loop, with the code, `input` and `result` it ends with. A size that wraps `pos_num`
to 0 makes the source go round on one input for ever: then the fuel runs out. -/
def chunk_loop : Nat → List Byte → List Byte → Option (Int × List Byte × List Byte)
  | 0, _, _ => none
  | fuel + 1, input, result =>
      match find input crlf with
      | none => some (1, input, result)
      | some pos_chunk_start =>
          let chunk_size := hexSize (input.take pos_chunk_start)
          if chunk_size = 0 then
            match find input crlfcrlf with
            | none => some (1, input, result)
            | some _ => some (0, input, result)
          else
            let pos_num := (pos_chunk_start + 4 + chunk_size) % 2 ^ 64
            if input.length < pos_num then some (1, input, result)
            else
              chunk_loop fuel (input.drop pos_num)
                (result ++ (input.drop (pos_chunk_start + 2)).take chunk_size)

/-- Every round but one that wraps takes something off `input`. -/
def ParseHttpContentChunk (input result : List Byte) : Option (Int × List Byte × List Byte) :=
  chunk_loop (input.length + 1) input result

/-- The pieces are appended to `input` one by one, with a call after each; the codes
of the calls and the strings after the last. -/
def receive (input result : List Byte) :
    List (List Byte) → Option (List Int × List Byte × List Byte)
  | [] => some ([], input, result)
  | piece :: later => do
      let (code, input, result) ← ParseHttpContentChunk (input ++ piece) result
      let (codes, input, result) ← receive input result later
      return (code :: codes, input, result)

/-! Messages. -/

structure Chunk where
  size : List Byte
  data : List Byte
  digits : ∀ digit ∈ size, isxdigit digit = true
  counts : hexValue size = data.length
  nonempty : data ≠ []

def Chunk.encode (chunk : Chunk) : List Byte := chunk.size ++ crlf ++ chunk.data ++ crlf

structure Line where
  bytes : List Byte
  nonempty : bytes ≠ []
  single : ¬ crlf <:+: bytes

structure Message where
  chunks : List Chunk
  zero : List Byte
  trailer : List Line
  nonempty : zero ≠ []
  zeros : ∀ digit ∈ zero, digit = 48

def Message.content (message : Message) : List Byte := message.chunks.flatMap Chunk.data

def lines (trailer : List Line) : List Byte := trailer.flatMap fun line => line.bytes ++ crlf

def Message.last (message : Message) : List Byte :=
  message.zero ++ crlf ++ lines message.trailer ++ crlf

def Message.encode (message : Message) : List Byte :=
  message.chunks.flatMap Chunk.encode ++ message.last

/-- The codes to come: 1 while bytes are missing, 0 from the moment none is. -/
def expected (missing : Nat) : List (List Byte) → List Int
  | [] => []
  | piece :: later =>
      (if missing = piece.length then 0 else 1) :: expected (missing - piece.length) later

/-! Sizes. -/

theorem digit_plain (char : Byte) (digit : isxdigit char = true) :
    isSpace char = false ∧ char ≠ 45 ∧ char ≠ 43 ∧ char ≠ 120 ∧ char ≠ 88 ∧ char ≠ 13 := by
  revert char
  exact forall_byte (by decide +kernel)

theorem hexSize_plain (first : Byte) (rest : List Byte) (digit : isxdigit first = true)
    (plain : ¬ (first = 48 ∧ (rest.head? = some 120 ∨ rest.head? = some 88))) :
    hexSize (first :: rest) =
      if 2 ^ 64 ≤ hexValue ((first :: rest).takeWhile isxdigit) then 2 ^ 64 - 1
      else hexValue ((first :: rest).takeWhile isxdigit) := by
  have usual := digit_plain first digit
  have start : skipSpace (first :: rest) = first :: rest := by
    rw [skipSpace, List.dropWhile_cons_of_neg (by simp [usual.1])]
  have unmarked : (match first :: rest with
      | 48 :: mark :: later => if mark = 120 ∨ mark = 88 then later else first :: rest
      | _ => first :: rest) = first :: rest := by
    split
    · rename_i mark later same
      rw [List.cons.injEq] at same
      rw [if_neg]
      intro marked
      exact plain ⟨same.1, by rw [same.2]; simpa using marked⟩
    · rfl
  simp only [hexSize, start, List.head?_cons, Option.some_beq_some, beq_iff_eq, usual.2.1,
    usual.2.2.1, or_self, Bool.or_eq_true, ↓reduceIte, unmarked]

theorem hexSize_digits (size : List Byte) (digits : ∀ digit ∈ size, isxdigit digit = true)
    (fits : hexValue size < 2 ^ 64) : hexSize size = hexValue size := by
  have whole : size.takeWhile isxdigit = size := List.takeWhile_eq_self_iff.mpr digits
  cases size with
  | nil => rfl
  | cons first rest =>
      have plain : ¬ (first = 48 ∧ (rest.head? = some 120 ∨ rest.head? = some 88)) := by
        rintro ⟨_, marked⟩
        rcases marked with marked | marked <;>
          exact absurd (digits _ (List.mem_cons_of_mem _ (List.mem_of_mem_head? marked)))
            (by decide)
      rw [hexSize_plain first rest (digits first (by simp)) plain, whole,
        if_neg (Nat.not_le.mpr fits)]

theorem hexValue_zeros (zero : List Byte) (zeros : ∀ digit ∈ zero, digit = 48) :
    hexValue zero = 0 := by
  induction zero with
  | nil => rfl
  | cons first rest ih =>
      have same := zeros first (by simp)
      subst same
      exact ih fun digit member => zeros digit (List.mem_cons_of_mem _ member)

/-! Line ends. -/

theorem line_first (line after : List Byte) (single : ¬ crlf <:+: line) :
    (line ++ crlf ++ after).dropInfix? crlf = some (line, after) := by
  apply Occurrence.split_of_first
  intro left right same
  have lengths := congrArg List.length same
  simp only [List.length_append, crlf_length] at lengths
  match right with
  | [] => rfl
  | [char] =>
      -- The two ends would overlap in one character.
      have front := congrArg List.dropLast same
      have shape : line ++ crlf = line ++ [13] ++ [10] := by
        rw [List.append_assoc]
        rfl
      rw [shape, List.dropLast_concat, List.dropLast_concat] at front
      have last := congrArg List.getLast? front
      rw [List.getLast?_append_of_ne_nil _ (by decide),
        List.getLast?_append_of_ne_nil _ (by decide)] at last
      exact absurd last (by decide)
  | first :: second :: more =>
      exfalso
      apply single
      have front := congrArg (List.take (left ++ crlf).length) same
      simp only [List.length_cons] at lengths
      rw [List.take_left, List.take_append_of_le_length (by
        rw [List.length_append, crlf_length]
        omega)] at front
      have split := List.take_append_drop (left ++ crlf).length line
      rw [front] at split
      exact ⟨left, _, split⟩

theorem single_of_absent (line : List Byte) (absent : 13 ∉ line) : ¬ crlf <:+: line := by
  intro inside
  exact absent (inside.subset (by decide))

theorem line_end (line after left right : List Byte) (single : ¬ crlf <:+: line)
    (same : line ++ crlf ++ after = left ++ crlf ++ right) : line.length ≤ left.length :=
  ((Occurrence.split_iff _ _ _ _).mp (line_first line after single)).2 left right same

theorem line_ahead (line after left right : List Byte)
    (same : line ++ crlf ++ after = left ++ crlf ++ right) (least : line.length ≤ left.length) :
    ∃ mid, left = line ++ mid ∧ crlf ++ after = mid ++ crlf ++ right := by
  rw [List.append_assoc, List.append_assoc] at same
  have front : line <+: left :=
    List.prefix_of_prefix_length_le ⟨_, same⟩ (List.prefix_append _ _) least
  obtain ⟨mid, rfl⟩ := front
  refine ⟨mid, rfl, ?_⟩
  simpa using same

theorem first_line (input line after : List Byte)
    (found : input.dropInfix? crlf = some (line, after)) :
    find input crlf = some line.length ∧ input.take line.length = line ∧
      input.drop (line.length + 2) = after := by
  have text := Occurrence.split_text _ _ _ _ found
  refine ⟨by rw [find, found], ?_, ?_⟩
  · rw [text, List.append_assoc, List.take_left]
  · rw [text, ← crlf_length, ← List.length_append, List.drop_left]

theorem trailer_end (trailer : List Line) (line left right : List Byte)
    (single : ¬ crlf <:+: line) (same : line ++ crlf ++ lines trailer ++ crlf =
      left ++ crlfcrlf ++ right) : right = [] := by
  have double : crlfcrlf = crlf ++ crlf := by decide
  rw [double] at same
  induction trailer generalizing line left with
  | nil =>
      have behind := line_end line crlf left (crlf ++ right) single (by
        simpa [lines] using same)
      have lengths := congrArg List.length same
      simp only [lines, List.flatMap_nil, List.length_append, crlf_length, List.length_nil]
        at lengths
      exact List.length_eq_zero_iff.mp (by omega)
  | cons next rest ih =>
      have shape : line ++ crlf ++ lines (next :: rest) ++ crlf =
          line ++ crlf ++ (next.bytes ++ crlf ++ lines rest ++ crlf) := by
        simp [lines]
      rw [shape] at same
      have regrouped : line ++ crlf ++ (next.bytes ++ crlf ++ lines rest ++ crlf) =
          left ++ crlf ++ (crlf ++ right) := by
        rw [same]
        simp
      have behind := line_end line _ left (crlf ++ right) single regrouped
      obtain ⟨more, rfl, below⟩ := line_ahead line _ left (crlf ++ right) regrouped behind
      match more with
      | [] =>
          -- The next line would be empty.
          rw [List.nil_append, List.append_cancel_left_eq] at below
          have nothing := line_end next.bytes (lines rest ++ crlf) [] right next.single (by
            simpa using below)
          exact absurd (List.length_eq_zero_iff.mp (Nat.le_zero.mp nothing)) next.nonempty
      | [char] =>
          have second : crlf = [13, 10] := by decide
          simp [second] at below
      | first :: second :: later =>
          have two : crlf = [13, 10] := by decide
          have inner : next.bytes ++ (crlf ++ (lines rest ++ crlf)) =
              later ++ (crlf ++ (crlf ++ right)) := by
            rw [two] at below ⊢
            simp only [List.cons_append, List.cons.injEq] at below
            simpa using below.2.2
          exact ih next.bytes later next.single (by simpa using inner)

/-! One call. -/

theorem Message.zero_single (message : Message) : ¬ crlf <:+: message.zero := by
  apply single_of_absent
  intro member
  exact absurd (message.zeros 13 member) (by decide)

theorem Chunk.size_single (chunk : Chunk) : ¬ crlf <:+: chunk.size := by
  apply single_of_absent
  intro member
  exact (digit_plain 13 (chunk.digits 13 member)).2.2.2.2.2 rfl

theorem last_size (message : Message) : hexSize message.zero = 0 := by
  have digits : ∀ digit ∈ message.zero, isxdigit digit = true := by
    intro digit member
    rw [message.zeros digit member]
    decide
  have value := hexValue_zeros message.zero message.zeros
  rw [hexSize_digits _ digits (by rw [value]; decide), value]

theorem find_front (input rest pattern before after : List Byte)
    (whole : (input ++ rest).dropInfix? pattern = some (before, after)) :
    find input pattern = none ∧ rest ≠ [] ∨
      find input pattern = some before.length ∧
        input = before ++ pattern ++ input.drop (before ++ pattern).length ∧
        after = input.drop (before ++ pattern).length ++ rest := by
  cases split : input.dropInfix? pattern with
  | none =>
      left
      refine ⟨by simp [find, split], ?_⟩
      rintro rfl
      rw [List.append_nil, split] at whole
      cases whole
  | some parts =>
      right
      have further := Occurrence.split_append _ _ _ _ rest split
      rw [whole, Option.some.injEq, Prod.mk.injEq] at further
      obtain ⟨rfl, rfl⟩ := further
      have text := Occurrence.split_text _ _ _ _ split
      have behind : input.drop (parts.1 ++ pattern).length = parts.2 := by
        rw [text, List.drop_left]
      rw [behind]
      exact ⟨by simp [find, split], text, rfl⟩

theorem trailer_ends (line : List Byte) (trailer : List Line) (single : ¬ crlf <:+: line) :
    ∃ before, (line ++ crlf ++ lines trailer ++ crlf).dropInfix? crlfcrlf =
      some (before, []) := by
  have ends : ∃ front, line ++ crlf ++ lines trailer = front ++ crlf := by
    rcases List.eq_nil_or_concat trailer with empty | ⟨front, last, shape⟩
    · exact ⟨line, by simp [empty, lines]⟩
    · exact ⟨line ++ crlf ++ lines front ++ last.bytes, by simp [shape, lines]⟩
  obtain ⟨front, same⟩ := ends
  cases split : (line ++ crlf ++ lines trailer ++ crlf).dropInfix? crlfcrlf with
  | none =>
      have absent := (Occurrence.split_none_iff _ _).mp split front []
      have double : crlfcrlf = crlf ++ crlf := by decide
      rw [same, double] at absent
      exact absurd (by simp) absent
  | some parts =>
      have nothing := trailer_end trailer line parts.1 parts.2 single
        (Occurrence.split_text _ _ _ _ split)
      exact ⟨parts.1, by rw [← nothing]⟩

theorem last_round (message : Message) (fuel : Nat) (input rest result : List Byte)
    (cut : input ++ rest = message.last) :
    chunk_loop (fuel + 1) input result =
      some (if rest = [] then 0 else 1, input, result) := by
  have line := line_first message.zero (lines message.trailer ++ crlf) message.zero_single
  rw [← List.append_assoc] at line
  change message.last.dropInfix? crlf = _ at line
  rw [← cut] at line
  rcases find_front input rest crlf _ _ line with ⟨missing, more⟩ | ⟨found, shape, _⟩
  · simp [chunk_loop, missing, more]
  · have size : hexSize (input.take message.zero.length) = 0 := by
      rw [shape, List.append_assoc, List.take_left]
      exact last_size message
    simp only [chunk_loop, found, size, ↓reduceIte]
    obtain ⟨before, finish⟩ := trailer_ends message.zero message.trailer message.zero_single
    change message.last.dropInfix? crlfcrlf = _ at finish
    rw [← cut] at finish
    rcases find_front input rest crlfcrlf before [] finish with ⟨missing, more⟩ | ⟨here, _, all⟩
    · simp [missing, more]
    · have nothing := (List.append_eq_nil_iff.mp all.symm).2
      simp [here, nothing]

theorem chunk_round (chunk : Chunk) (fuel : Nat) (input rest after result : List Byte)
    (cut : input ++ rest = chunk.encode ++ after) (fits : chunk.encode.length < 2 ^ 63) :
    (chunk_loop (fuel + 1) input result = some (1, input, result) ∧ rest ≠ []) ∨
      ∃ more, input = chunk.encode ++ more ∧ more ++ rest = after ∧
        chunk_loop (fuel + 1) input result = chunk_loop fuel more (result ++ chunk.data) := by
  have line := line_first chunk.size (chunk.data ++ crlf ++ after) chunk.size_single
  have shape : chunk.size ++ crlf ++ (chunk.data ++ crlf ++ after) = chunk.encode ++ after := by
    simp [Chunk.encode]
  rw [shape, ← cut] at line
  have length : chunk.encode.length = chunk.size.length + 4 + chunk.data.length := by
    simp only [Chunk.encode, List.length_append, crlf_length]
    omega
  have positive := List.length_pos_iff.mpr chunk.nonempty
  -- The size line has come in whole, or the call returns 1 at once.
  rcases find_front input rest crlf _ _ line with ⟨missing, more⟩ | ⟨found, ahead, _⟩
  · left
    exact ⟨by simp [chunk_loop, missing], more⟩
  · have size : hexSize (input.take chunk.size.length) = chunk.data.length := by
      rw [ahead, List.append_assoc, List.take_left,
        hexSize_digits _ chunk.digits (by rw [chunk.counts]; omega), chunk.counts]
    have pos_num : (chunk.size.length + 4 + chunk.data.length) % 2 ^ 64 = chunk.encode.length := by
      rw [length]
      exact Nat.mod_eq_of_lt (by omega)
    have present : ¬ chunk.data.length = 0 := by omega
    simp only [chunk_loop, found, size, pos_num, present, ↓reduceIte]
    -- The data and the line end behind them may still be on their way.
    by_cases short : input.length < chunk.encode.length
    · left
      refine ⟨by simp [short], ?_⟩
      rintro rfl
      have lengths := congrArg List.length cut
      simp only [List.length_append, List.length_nil] at lengths
      omega
    · right
      have front := congrArg (List.take chunk.encode.length) cut
      rw [List.take_append_of_le_length (by omega), List.take_left] at front
      have split := (List.take_append_drop chunk.encode.length input).symm
      rw [front] at split
      refine ⟨input.drop chunk.encode.length, split, ?_, ?_⟩
      · rw [split, List.append_assoc, List.append_cancel_left_eq] at cut
        exact cut
      · have data : (input.drop (chunk.size.length + 2)).take chunk.data.length = chunk.data := by
          have cells : input = (chunk.size ++ crlf) ++
              (chunk.data ++ (crlf ++ input.drop chunk.encode.length)) := by
            rw [← List.append_assoc, ← List.append_assoc]
            exact split
          have count : chunk.size.length + 2 = (chunk.size ++ crlf).length := by simp
          rw [cells, count, List.drop_left, List.take_left]
        rw [if_neg short, data]

/-- One call on what has come in of the chunks still to be understood. -/
theorem call (message : Message) (todo : List Chunk) (fuel : Nat)
    (input rest result : List Byte) (enough : input.length < fuel)
    (cut : input ++ rest = todo.flatMap Chunk.encode ++ message.last)
    (fits : (todo.flatMap Chunk.encode ++ message.last).length < 2 ^ 63) :
    ∃ done more left, todo = done ++ more ∧
      left ++ rest = more.flatMap Chunk.encode ++ message.last ∧
      chunk_loop fuel input result = some (if rest = [] then 0 else 1, left,
        result ++ done.flatMap Chunk.data) ∧ (rest = [] → more = []) := by
  obtain ⟨fuel, rfl⟩ : ∃ less, fuel = less + 1 := ⟨fuel - 1, by omega⟩
  -- On the chunks to be understood; `input` is what has come in of them.
  induction todo generalizing fuel input result with
  | nil =>
      refine ⟨[], [], input, rfl, cut, ?_, fun _ => rfl⟩
      rw [last_round message fuel input rest result (by simpa using cut)]
      simp
  | cons chunk todo ih =>
      rw [List.flatMap_cons, List.append_assoc] at cut fits
      rw [List.length_append] at fits
      rcases chunk_round chunk fuel input rest _ result cut (by omega) with
        ⟨waits, missing⟩ | ⟨later, split, follows, goes⟩
      · refine ⟨[], chunk :: todo, input, rfl, ?_, ?_, ?_⟩
        · rw [cut, List.flatMap_cons, List.append_assoc]
        · simp [waits, missing]
        · intro waiting
          exact absurd waiting missing
      · have lengths := congrArg List.length split
        have size : 0 < chunk.encode.length := by
          simp only [Chunk.encode, List.length_append, crlf_length]
          omega
        rw [List.length_append] at lengths
        obtain ⟨less, rfl⟩ : ∃ less, fuel = less + 1 := ⟨fuel - 1, by omega⟩
        obtain ⟨done, more, left, parts, after, ran, all⟩ :=
          ih later (result ++ chunk.data) follows (by omega) less (by omega)
        refine ⟨chunk :: done, more, left, by rw [parts]; rfl, after, ?_, all⟩
        rw [goes, ran]
        simp

/-! All calls. -/

theorem receive_pieces (message : Message) (pieces : List (List Byte)) (todo : List Chunk)
    (input rest result : List Byte)
    (cut : input ++ pieces.flatten ++ rest = todo.flatMap Chunk.encode ++ message.last)
    (fits : (todo.flatMap Chunk.encode ++ message.last).length < 2 ^ 63) (called : pieces ≠ []) :
    ∃ left got, receive input result pieces =
        some (expected (pieces.flatten ++ rest).length pieces, left, got) ∧
      (rest = [] → got = result ++ todo.flatMap Chunk.data) := by
  -- On the pieces: what one call leaves over is the front of the next input.
  induction pieces generalizing input result todo with
  | nil => exact absurd rfl called
  | cons piece later ih =>
      have here : (input ++ piece) ++ (later.flatten ++ rest) =
          todo.flatMap Chunk.encode ++ message.last := by
        rw [← cut, List.flatten_cons]
        simp
      obtain ⟨done, more, left, parts, after, ran, all⟩ :=
        call message todo ((input ++ piece).length + 1) (input ++ piece) (later.flatten ++ rest)
          result (by omega) here fits
      have lengths : ((piece :: later).flatten ++ rest).length =
          piece.length + (later.flatten ++ rest).length := by
        rw [List.flatten_cons, List.append_assoc, List.length_append]
      -- A call gives 0 exactly where its piece has all that was missing.
      have code : (if later.flatten ++ rest = [] then (0 : Int) else 1) =
          if ((piece :: later).flatten ++ rest).length = piece.length then 0 else 1 := by
        by_cases empty : later.flatten ++ rest = []
        · rw [if_pos empty, if_pos (by rw [lengths, empty]; rfl)]
        · have positive := List.length_pos_iff.mpr empty
          rw [if_neg empty, if_neg (by omega)]
      have missing : ((piece :: later).flatten ++ rest).length - piece.length =
          (later.flatten ++ rest).length := by omega
      simp only [receive, ParseHttpContentChunk, ran, code, Option.bind_eq_bind,
        Option.bind_some, Option.pure_def, expected, missing]
      cases later with
      | nil =>
          refine ⟨left, result ++ done.flatMap Chunk.data, by simp [receive, expected], ?_⟩
          intro waiting
          have nothing := all (by simp [waiting])
          rw [parts, nothing, List.append_nil]
      | cons next others =>
          have shorter : (more.flatMap Chunk.encode ++ message.last).length < 2 ^ 63 := by
            rw [parts, List.flatMap_append, List.append_assoc, List.length_append] at fits
            omega
          obtain ⟨last, got, received, content⟩ := ih more left (result ++ done.flatMap Chunk.data)
            (by rw [List.append_assoc]; exact after) shorter (by simp)
          refine ⟨last, got, by rw [received]; rfl, ?_⟩
          intro waiting
          rw [content waiting, parts]
          simp

/-- Whatever way the message is cut, each call but those that have all of it returns 1, and
with the last byte the content has been appended to the result. -/
theorem receive_message (message : Message) (pieces : List (List Byte)) (rest result : List Byte)
    (cut : pieces.flatten ++ rest = message.encode) (fits : message.encode.length < 2 ^ 63) :
    ∃ left got, receive [] result pieces =
        some (expected message.encode.length pieces, left, got) ∧
      (rest = [] → got = result ++ message.content) := by
  cases pieces with
  | nil =>
      refine ⟨[], result, rfl, ?_⟩
      rintro rfl
      -- A message is never empty.
      have nothing := congrArg List.length cut
      simp [Message.encode, Message.last] at nothing
  | cons piece later =>
      obtain ⟨left, got, received, content⟩ := receive_pieces message (piece :: later)
        message.chunks [] rest result (by rw [List.nil_append]; exact cut) fits (by simp)
      rw [cut] at received
      exact ⟨left, got, received, content⟩

def sample : Message where
  chunks := [⟨text "03", text "a\r\n", List.all_eq_true.mp rfl, by decide, by decide⟩]
  zero := text "0"
  trailer := [⟨text "X: 1", by decide, by decide⟩]
  nonempty := by decide
  zeros := List.forall_mem_singleton.mpr rfl

/-- Cut inside the size line, inside the data and between CR and LF. -/
theorem receive_message_cut : ∃ left,
    receive [] (text "so: ") [text "0", text "3\r\na\r", text "\n\r\n0\r\nX: 1\r\n\r",
      text "\n"] = some ([1, 1, 1, 0], left, text "so: " ++ text "a\r\n") := by
  obtain ⟨left, got, received, content⟩ := receive_message sample
    [text "0", text "3\r\na\r", text "\n\r\n0\r\nX: 1\r\n\r", text "\n"] [] (text "so: ")
    (by decide) (by decide)
  have codes : expected sample.encode.length
      [text "0", text "3\r\na\r", text "\n\r\n0\r\nX: 1\r\n\r", text "\n"] = [1, 1, 1, 0] := by
    decide
  refine ⟨left, ?_⟩
  rw [received, codes, content rfl]
  rfl

end AsrServer.ChunkedContent
