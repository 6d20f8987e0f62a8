import AsrServer.ChunkProgress

/-!
What `ParseHttpContentChunk` accepts, against the grammar of chunked bodies. It takes as a
size whatever `istream >> hex` makes of a line and skips two bytes behind the data without
looking at them. Where every line that it comes to says what the grammar reads, and
the two bytes are the end of a line, what it accepts is a chunked body.
-/

namespace AsrServer.ChunkGrammar

open Bytes RequestHeader UrlCode ChunkedContent ChunkProgress Machine

/-! The grammar. -/

def leading (line : List Byte) : Nat := hexValue (line.takeWhile isxdigit)

def StartsWithDigit (line : List Byte) : Prop := line.head?.any isxdigit = true

structure SizeLine where
  bytes : List Byte
  single : ¬ crlf <:+: bytes
  starts : StartsWithDigit bytes

structure Part where
  line : SizeLine
  data : List Byte
  counts : leading line.bytes = data.length
  nonempty : data ≠ []

def Part.encode (part : Part) : List Byte := part.line.bytes ++ crlf ++ part.data ++ crlf

structure Body where
  parts : List Part
  last : SizeLine
  zero : leading last.bytes = 0
  trailer : List Line

def Body.encode (body : Body) : List Byte :=
  body.parts.flatMap Part.encode ++ (body.last.bytes ++ crlf ++ lines body.trailer ++ crlf)

def Body.content (body : Body) : List Byte := body.parts.flatMap Part.data

def WellFormed (input result out : List Byte) : Prop :=
  ∃ body : Body, body.encode <+: input ∧ out = result ++ body.content

/-! The condition. -/

/-- `0x` ahead of the number, which the stream skips. -/
def Marked (line : List Byte) : Prop :=
  line.head? = some 48 ∧ (line.tail.head? = some 120 ∨ line.tail.head? = some 88)

/-- The line begins with a digit; if its size is not 0, it is without `0x` and no more than
a `size_t`, and the data are followed by the end of a line. -/
def Clean (input : List Byte) : Prop :=
  ∀ line after, input.dropInfix? crlf = some (line, after) →
    StartsWithDigit line ∧
      (hexSize line ≠ 0 → ¬ Marked line ∧ leading line < 2 ^ 64 ∧
        (after.drop (hexSize line)).take 2 = crlf)

/-! Sizes. -/

theorem hexSize_leading (line : List Byte) (starts : StartsWithDigit line)
    (plain : ¬ Marked line) :
    hexSize line = if 2 ^ 64 ≤ leading line then 2 ^ 64 - 1 else leading line := by
  cases line with
  | nil => cases starts
  | cons first rest =>
      apply hexSize_plain first rest starts
      simpa [Marked] using plain

theorem leading_marked (line : List Byte) (marked : Marked line) : leading line = 0 := by
  obtain ⟨zero, mark⟩ := marked
  cases line with
  | nil => cases zero
  | cons first rest =>
      cases zero
      rw [List.tail_cons] at mark
      have digit : isxdigit 48 = true := by decide
      have stops : rest.takeWhile isxdigit = [] := by
        cases rest with
        | nil => rfl
        | cons second later =>
            apply List.takeWhile_cons_of_neg
            rcases mark with mark | mark <;> cases mark <;> decide
      rw [leading, List.takeWhile_cons_of_pos digit, stops]
      decide

theorem leading_zero (line : List Byte) (starts : StartsWithDigit line) (zero : hexSize line = 0) :
    leading line = 0 := by
  by_cases marked : Marked line
  · exact leading_marked line marked
  · rw [hexSize_leading line starts marked] at zero
    split at zero
    · cases zero
    · exact zero

/-! Lines. -/

theorem first_single (input line after : List Byte)
    (found : input.dropInfix? crlf = some (line, after)) : ¬ crlf <:+: line := by
  rintro ⟨left, right, same⟩
  obtain ⟨text, first⟩ := (Occurrence.split_iff _ _ _ _).mp found
  have least := first left (right ++ crlf ++ after) (by rw [text, ← same]; simp)
  have lengths := congrArg List.length same
  simp only [List.length_append, crlf_length] at lengths
  omega

theorem trailer_lines (bound : Nat) (mid after right : List Byte) (short : mid.length < bound)
    (same : crlf ++ after = mid ++ crlf ++ (crlf ++ right)) :
    ∃ trailer more, after = lines trailer ++ crlf ++ more := by
  have two : crlf = [13, 10] := by decide
  induction bound generalizing mid after with
  | zero => exact absurd short (Nat.not_lt_zero _)
  | succ bound ih =>
      match mid with
      | [] =>
          refine ⟨[], right, ?_⟩
          simpa [lines] using same
      | [char] =>
          -- The line feed of the first end would be the return of the second.
          simp [two] at same
      | first :: second :: mid =>
          have inner : after = mid ++ crlf ++ (crlf ++ right) := by
            simp only [two, List.cons_append, List.cons.injEq] at same
            rw [two]
            exact same.2.2
          cases found : after.dropInfix? crlf with
          | none => exact absurd inner ((Occurrence.split_none_iff _ _).mp found mid _)
          | some parts =>
              obtain ⟨line, rest⟩ := parts
              have text := Occurrence.split_text _ _ _ _ found
              have single := first_single after line rest found
              have least := ((Occurrence.split_iff _ _ _ _).mp found).2 mid _ inner
              by_cases empty : line = []
              · exact ⟨[], rest, by rw [text, empty]; rfl⟩
              · obtain ⟨left, rfl, below⟩ :=
                  line_ahead line rest mid _ (text.symm.trans inner) least
                have positive := List.length_pos_iff.mpr empty
                simp only [List.length_cons, List.length_append] at short
                obtain ⟨trailer, more, shape⟩ := ih left rest (by omega) below
                refine ⟨⟨line, empty, single⟩ :: trailer, more, ?_⟩
                rw [text, shape]
                simp [lines]

/-! Rounds. -/

theorem code_line (input : List Byte) (stopped : parse_code input = 0) :
    ∃ line after left right, input.dropInfix? crlf = some (line, after) ∧ hexSize line = 0 ∧
      input = left ++ crlfcrlf ++ right := by
  cases found : input.dropInfix? crlf with
  | none => simp [parse_code, find, found] at stopped
  | some parts =>
      obtain ⟨line, after⟩ := parts
      obtain ⟨place, size, _⟩ := first_line input line after found
      simp only [parse_code, place, size] at stopped
      split at stopped
      · rename_i zero
        cases ended : input.dropInfix? crlfcrlf with
        | none => simp [find, ended] at stopped
        | some sides =>
            exact ⟨line, after, sides.1, sides.2, rfl, zero, Occurrence.split_text _ _ _ _ ended⟩
      · cases stopped

theorem zero_stops (input result line after : List Byte)
    (found : input.dropInfix? crlf = some (line, after)) (zero : hexSize line = 0) :
    parse_round (input, result) = none := by
  cases moved : parse_round (input, result) with
  | none => rfl
  | some next =>
      obtain ⟨other, behind, same, nonzero, _⟩ := parse_round_line input result next moved
      rw [found] at same
      cases same
      exact absurd zero nonzero

theorem round_part (input result : List Byte) (next : List Byte × List Byte)
    (fits : input.length < 2 ^ 64) (moved : parse_round (input, result) = some next)
    (clean : Clean input) :
    ∃ part : Part, input = part.encode ++ next.1 ∧ next.2 = result ++ part.data := by
  obtain ⟨line, after, found, nonzero, inside, rfl⟩ := parse_round_line input result next moved
  obtain ⟨starts, sized⟩ := clean line after found
  obtain ⟨plain, small, ends⟩ := sized nonzero
  have size := hexSize_leading line starts plain
  rw [if_neg (Nat.not_le.mpr small)] at size
  rw [size] at nonzero ends inside ⊢
  have text := Occurrence.split_text _ _ _ _ found
  have lengths := congrArg List.length text
  have behind := congrArg List.length ends
  simp only [List.length_append, List.length_take, List.length_drop, crlf_length]
    at lengths behind
  have data : (after.take (leading line)).length = leading line := List.length_take_of_le (by omega)
  have split : after = after.take (leading line) ++ crlf ++ after.drop (leading line + 2) := by
    have cut := List.take_append_drop 2 (after.drop (leading line))
    rw [ends, List.drop_drop] at cut
    rw [List.append_assoc, cut, List.take_append_drop]
  -- The part lies within the input, so that the position does not wrap.
  have place : (line.length + 4 + leading line) % 2 ^ 64 =
      (line ++ crlf).length + (leading line + 2) := by
    rw [Nat.mod_eq_of_lt (by omega), List.length_append, crlf_length]
    omega
  have left : input.drop ((line.length + 4 + leading line) % 2 ^ 64) =
      after.drop (leading line + 2) := by
    rw [place, ← List.drop_drop, text, List.drop_left]
  have single := first_single input line after found
  refine ⟨⟨⟨line, single, starts⟩, after.take (leading line), data.symm,
    List.ne_nil_of_length_pos (by omega)⟩, ?_, rfl⟩
  calc input
    _ = line ++ crlf ++ after := text
    _ = line ++ crlf ++ (after.take (leading line) ++ crlf ++ after.drop (leading line + 2)) := by
        rw [← split]
    _ = _ := by
        rw [left]
        simp [Part.encode]

theorem last_part (input : List Byte) (stopped : parse_code input = 0) (clean : Clean input) :
    ∃ body : Body, body.parts = [] ∧ body.encode <+: input := by
  obtain ⟨line, after, left, right, found, zero, ended⟩ := code_line input stopped
  have starts := (clean line after found).1
  have text := Occurrence.split_text _ _ _ _ found
  have double : crlfcrlf = crlf ++ crlf := by decide
  have twice : input = left ++ crlf ++ (crlf ++ right) := by
    rw [ended, double]
    simp
  -- The CRLFCRLF may begin with the end of the size line itself.
  have least := ((Occurrence.split_iff _ _ _ _).mp found).2 left _ twice
  obtain ⟨mid, rfl, below⟩ := line_ahead line after left _ (text.symm.trans twice) least
  obtain ⟨trailer, more, shape⟩ := trailer_lines (mid.length + 1) mid after right (by omega) below
  have single := first_single input line after found
  refine ⟨⟨[], ⟨line, single, starts⟩, leading_zero line starts zero, trailer⟩, rfl, more, ?_⟩
  simp [Body.encode, text, shape]

theorem loop_extends (fuel : Nat) (input result : List Byte) (code : Int) (rest out : List Byte)
    (ran : chunk_loop fuel input result = some (code, rest, out)) : result <+: out := by
  induction fuel generalizing input result with
  | zero => cases ran
  | succ fuel ih =>
      rw [chunk_loop_round] at ran
      cases moved : parse_round (input, result) with
      | none =>
          rw [moved] at ran
          cases ran
          exact List.prefix_rfl
      | some next =>
          rw [moved] at ran
          obtain ⟨_, _, _, _, _, rfl⟩ := parse_round_line input result next moved
          exact (List.prefix_append _ _).trans (ih _ _ ran)

/-! What is accepted. -/

theorem clean_accepts (fuel : Nat) (input result rest out : List Byte)
    (fits : input.length < 2 ^ 64) (ran : chunk_loop fuel input result = some (0, rest, out))
    (clean : ∀ now, Run parse_round (input, result) now → Clean now.1) :
    WellFormed input result out := by
  -- The rounds give the parts from the front, the one that ends gives the last.
  induction fuel generalizing input result with
  | zero => cases ran
  | succ fuel ih =>
      have here := clean _ (.done _)
      rw [chunk_loop_round] at ran
      cases moved : parse_round (input, result) with
      | none =>
          simp only [moved, Option.elim_none, Option.some.injEq, Prod.mk.injEq] at ran
          obtain ⟨stopped, _, rfl⟩ := ran
          obtain ⟨body, empty, shape⟩ := last_part input stopped here
          exact ⟨body, shape, by simp [Body.content, empty]⟩
      | some next =>
          rw [moved] at ran
          obtain ⟨part, split, added⟩ := round_part input result next fits moved here
          have lengths := congrArg List.length split
          rw [List.length_append] at lengths
          obtain ⟨body, shape, content⟩ := ih next.1 next.2 (by omega) ran
            fun now later => clean now (.next trivial moved later)
          refine ⟨⟨part :: body.parts, body.last, body.zero, body.trailer⟩, ?_, ?_⟩
          · have front := (List.prefix_append_right_inj part.encode).mpr shape
            rw [← split] at front
            simpa [Body.encode] using front
          · rw [content, added]
            simp [Body.content]

theorem part_line (part : Part) (after input : List Byte) (fits : input.length < 2 ^ 64)
    (split : input = part.encode ++ after) :
    input.dropInfix? crlf = some (part.line.bytes, part.data ++ crlf ++ after) ∧
      ¬ Marked part.line.bytes ∧ hexSize part.line.bytes = part.data.length := by
  have positive := List.length_pos_iff.mpr part.nonempty
  have plain : ¬ Marked part.line.bytes := by
    intro marked
    have zero := leading_marked _ marked
    rw [part.counts] at zero
    omega
  have lengths := congrArg List.length split
  simp only [Part.encode, List.length_append, crlf_length] at lengths
  have size := hexSize_leading part.line.bytes part.line.starts plain
  rw [part.counts, if_neg (by omega)] at size
  refine ⟨?_, plain, size⟩
  rw [← line_first part.line.bytes _ part.line.single, split]
  simp [Part.encode]

theorem part_clean (part : Part) (after input : List Byte) (fits : input.length < 2 ^ 64)
    (split : input = part.encode ++ after) : Clean input := by
  obtain ⟨found, plain, size⟩ := part_line part after input fits split
  have bound := ChunkProgress.hexSize_lt part.line.bytes
  intro line behind same
  rw [found] at same
  cases same
  refine ⟨part.line.starts, fun _ => ⟨plain, by rw [part.counts, ← size]; exact bound, ?_⟩⟩
  rw [size, List.append_assoc, List.drop_left, ← crlf_length, List.take_left]

theorem part_round (part : Part) (after input result : List Byte) (fits : input.length < 2 ^ 64)
    (split : input = part.encode ++ after) :
    parse_round (input, result) = some (after, result ++ part.data) := by
  obtain ⟨found, _, size⟩ := part_line part after input fits split
  have positive := List.length_pos_iff.mpr part.nonempty
  have lengths := congrArg List.length split
  have encoded : part.encode.length = part.line.bytes.length + 4 + part.data.length := by
    simp only [Part.encode, List.length_append, crlf_length]
    omega
  rw [List.length_append] at lengths
  have place : (part.line.bytes.length + 4 + part.data.length) % 2 ^ 64 = part.encode.length := by
    rw [Nat.mod_eq_of_lt (by omega), encoded]
  obtain ⟨pos, line, data⟩ := first_line input _ _ found
  simp only [parse_round, pos, line, data, size, place]
  rw [if_neg (by omega), if_neg (by omega), split, List.drop_left, List.append_assoc,
    List.take_left]

theorem last_clean (fuel : Nat) (body : Body) (input result rest : List Byte)
    (empty : body.parts = []) (shape : body.encode <+: input)
    (ran : chunk_loop (fuel + 1) input result = some (0, rest, result)) :
    Clean input ∧ parse_round (input, result) = Option.none := by
  obtain ⟨more, split⟩ := shape
  have found : input.dropInfix? crlf =
      some (body.last.bytes, lines body.trailer ++ crlf ++ more) := by
    rw [← line_first body.last.bytes _ body.last.single, ← split]
    simp [Body.encode, empty]
  have zero : hexSize body.last.bytes = 0 := by
    rw [chunk_loop_round] at ran
    cases moved : parse_round (input, result) with
    | none =>
        simp only [moved, Option.elim_none, Option.some.injEq, Prod.mk.injEq] at ran
        obtain ⟨line, _, _, _, same, zero, _⟩ := code_line input ran.1
        rw [found] at same
        cases same
        exact zero
    | some next =>
        obtain ⟨line, after, same, sized, _, rfl⟩ := parse_round_line input result next moved
        rw [found] at same
        cases same
        -- A round would have added data, and the result has none.
        rw [moved] at ran
        have longer := (loop_extends fuel _ _ 0 rest result ran).length_le
        simp only [List.length_append, List.length_take, crlf_length] at longer
        omega
  refine ⟨?_, zero_stops input result _ _ found zero⟩
  intro line after same
  rw [found] at same
  cases same
  exact ⟨body.last.starts, fun sized => absurd zero sized⟩

theorem accepts_clean (parts : List Part) (fuel : Nat) (input result rest out : List Byte)
    (fits : input.length < 2 ^ 64) (ran : chunk_loop fuel input result = some (0, rest, out))
    (body : Body) (same : body.parts = parts) (shape : body.encode <+: input)
    (content : out = result ++ body.content) (now : List Byte × List Byte)
    (reached : Run parse_round (input, result) now) : Clean now.1 := by
  -- Each round takes the first part of the body off; with none left the loop has ended.
  induction parts generalizing fuel input result body with
  | nil =>
      match fuel with
      | 0 => cases ran
      | fuel + 1 =>
          have out_same : out = result := by simpa [Body.content, same] using content
          rw [out_same] at ran
          obtain ⟨clean, stops⟩ := last_clean fuel body input result rest same shape ran
          cases reached with
          | done => exact clean
          | next _ moved _ =>
              rw [stops] at moved
              cases moved
  | cons part parts ih =>
      match fuel with
      | 0 => cases ran
      | fuel + 1 =>
          obtain ⟨more, split⟩ := shape
          let later : Body := ⟨parts, body.last, body.zero, body.trailer⟩
          have first : body.encode = part.encode ++ later.encode := by
            simp [Body.encode, later, same]
          rw [first, List.append_assoc] at split
          have steps := part_round part _ input result fits split.symm
          cases reached with
          | done => exact part_clean part _ input fits split.symm
          | next _ moved further =>
              rw [steps] at moved
              cases moved
              rw [chunk_loop_round, steps] at ran
              have lengths := congrArg List.length split
              rw [List.length_append] at lengths
              have shorter : (later.encode ++ more).length < 2 ^ 64 := by omega
              refine ih fuel _ _ shorter ran later rfl (List.prefix_append _ _) ?_ further
              rw [content]
              simp [Body.content, later, same]

/-- What the parser accepts is a chunked body exactly where the lines that it comes to are
clean. -/
theorem accept_sound (input result rest out : List Byte) (fits : input.length < 2 ^ 64)
    (accepted : ParseHttpContentChunk input result = some (0, rest, out)) :
    WellFormed input result out ↔
      ∀ now, Run parse_round (input, result) now → Clean now.1 := by
  constructor
  · rintro ⟨body, shape, content⟩ now reached
    exact accepts_clean body.parts _ input result rest out fits accepted body rfl shape content
      now reached
  · intro clean
    exact clean_accepts _ input result rest out fits accepted clean

def plain : List Byte := text "3\r\nabc\r\n0\r\n\r\n"

def unended : List Byte := text "3\r\nabcXX0\r\n\r\n"

theorem unended_accepted :
    ParseHttpContentChunk unended [] = some (0, text "0\r\n\r\n", text "abc") := by
  decide +kernel

theorem unended_malformed : ¬ WellFormed unended [] (text "abc") := by
  rintro ⟨body, shape, content⟩
  have clean := accepts_clean body.parts _ unended [] _ _ (by decide) unended_accepted body rfl
    shape content _ (.done _)
  have sized := (clean (text "3") (text "abcXX0\r\n\r\n") (by decide)).2 (by decide +kernel)
  exact absurd sized.2.2 (by decide +kernel)

/-- The parser accepts more than chunked bodies. -/
theorem unended_accepts : ¬ ∀ input result rest out,
    ParseHttpContentChunk input result = some (0, rest, out) → WellFormed input result out :=
  fun sound => unended_malformed (sound unended [] _ _ unended_accepted)

theorem accept_sound_plain :
    WellFormed plain [] (text "abc") ↔
      ∀ now, Run parse_round (plain, []) now → Clean now.1 :=
  accept_sound plain [] (text "0\r\n\r\n") (text "abc") (by decide) (by decide +kernel)

end AsrServer.ChunkGrammar
