import AsrServer.ResponseFragments

/-!
`ParseHttpHeader` and `ParseHttpContentLength`, which are called again whenever bytes have
come in. All that is decided about a header is decided within it, with one exception: `atoi`
goes on past the end of the header when nothing but white space stands behind
`Content-Length:`, and then it reads the body.
-/

namespace AsrServer.HttpHeader

open Bytes RequestHeader Numbers HttpResponse ResponseFragments

/-- The code, `input` and `content_length`. -/
def ParseHttpHeader (input : List Byte) : Int × List Byte × Int :=
  match find input crlfcrlf with
  | none => if 10240 < input.length then (-1, input, -1) else (1, input, -1)
  | some pos =>
      let header_length := pos + 4
      if 10240 < header_length then (-1, input, -1)
      else if (find input chunkedMark).any fun pos => pos < header_length then
        (0, input.drop header_length, -1)
      else
        match find input lengthMark with
        | none => (-1, input, -1)
        | some pos =>
            if header_length ≤ pos then (-1, input, -1)
            else
              let content_length := atoi (input.drop (pos + 15))
              if content_length < 0 then (-1, input, content_length)
              else (0, input.drop header_length, content_length)

def ParseHttpContentLength (input : List Byte) (content_length : Int) : Int :=
  if content_length < 0 then -1
  else if input.length < content_length.toNat then 1
  else if content_length.toNat < input.length then -1
  else 0

/-- What a caller relies on that polls after every read: a verdict is the same for all bytes
that may follow, and without one nothing is taken off. -/
structure Final (input : List Byte) : Prop where
  verdict : (ParseHttpHeader input).1 = 0 ∨ (ParseHttpHeader input).1 = -1 → ∀ more,
    (ParseHttpHeader (input ++ more)).1 = (ParseHttpHeader input).1 ∧
      (ParseHttpHeader (input ++ more)).2.2 = (ParseHttpHeader input).2.2
  rest : (ParseHttpHeader input).1 = 0 → ∀ more,
    (ParseHttpHeader (input ++ more)).2.1 = (ParseHttpHeader input).2.1 ++ more
  waits : (ParseHttpHeader input).1 = 1 → (ParseHttpHeader input).2.1 = input

/-! One header. -/

theorem parse_head (input before after : List Byte)
    (found : input.dropInfix? crlfcrlf = some (before, after)) :
    ParseHttpHeader input =
      if 10240 < before.length + 4 then (-1, input, -1)
      else if chunkedMark <:+: before ++ crlfcrlf then (0, after, -1)
      else
        match (before ++ crlfcrlf).dropInfix? lengthMark with
        | none => (-1, input, -1)
        | some (_, tail) =>
            if atoi (tail ++ after) < 0 then (-1, input, atoi (tail ++ after))
            else (0, after, atoi (tail ++ after)) := by
  have shape := Occurrence.split_text _ _ _ _ found
  have size : (before ++ crlfcrlf).length = before.length + 4 := by simp
  have pos : find input crlfcrlf = some before.length := by rw [find, found]
  have behind : input.drop (before.length + 4) = after := by rw [shape, ← size, List.drop_left]
  have marks := find_in_head before after chunkedMark (by decide) (by decide)
  have lengths := find_in_head before after lengthMark (by decide) (by decide)
  rw [← shape] at marks lengths
  simp only [ParseHttpHeader, pos, behind]
  by_cases long : 10240 < before.length + 4
  · rw [if_pos long, if_pos long]
  · rw [if_neg long, if_neg long]
    by_cases marked : chunkedMark <:+: before ++ crlfcrlf
    · obtain ⟨mark, there, inside⟩ := marks.mpr marked
      rw [if_pos marked, there, Option.any_some, if_pos (by simpa using inside)]
    · have unmarked : ¬ (find input chunkedMark).any (fun pos => pos < before.length + 4) := by
        intro any
        obtain ⟨mark, there, inside⟩ := (Option.any_eq_true _ _).mp any
        exact marked (marks.mp ⟨mark, there, by simpa using inside⟩)
      rw [if_neg marked, if_neg unmarked]
      cases field : (before ++ crlfcrlf).dropInfix? lengthMark with
      | some parts =>
          -- The field lies in the header, so it is the first in the whole input.
          have text := Occurrence.split_text _ _ _ _ field
          have further := Occurrence.split_append _ _ _ _ after field
          have count := congrArg List.length text
          have mark : lengthMark.length = 15 := by decide
          rw [size, List.length_append, List.length_append, mark] at count
          have tail : input.drop (parts.1.length + 15) = parts.2 ++ after := by
            rw [← mark, ← List.length_append, shape, text, List.append_assoc _ parts.2,
              List.drop_left]
          have there : find input lengthMark = some parts.1.length := by
            rw [shape, find, further]
          simp only [there, tail]
          rw [if_neg (by omega)]
      | none =>
          have absent : ¬ lengthMark <:+: before ++ crlfcrlf := by
            rintro ⟨left, right, same⟩
            exact (Occurrence.split_none_iff _ _).mp field left right same.symm
          cases there : find input lengthMark with
          | none => rfl
          | some mark =>
              have beyond : before.length + 4 ≤ mark := by
                by_contra inside
                exact absent (lengths.mp ⟨mark, there, by omega⟩)
              dsimp only
              rw [if_pos beyond]

/-! What may still change. -/

def asked (input : List Byte) : Option (List Byte) :=
  match input.dropInfix? crlfcrlf with
  | none => none
  | some (before, after) =>
      if 10240 < before.length + 4 ∨ chunkedMark <:+: before ++ crlfcrlf then none
      else
        match (before ++ crlfcrlf).dropInfix? lengthMark with
        | none => none
        | some (_, tail) => some (tail ++ after)

/-- The number ends ahead of the end of the text, or it is too large for further digits to
matter: as an `int` it is what the end of `long` is. -/
def Ends (string : List Byte) : Prop :=
  (∃ char ∈ unsigned string, isDigit char = false) ∨
    (2 ^ 63 ≤ decimal (digits string) * 10 ∧
      if negative string then
        2 ^ 63 ≤ decimal (digits string) ∨ decimal (digits string) % 2 ^ 32 = 0
      else 2 ^ 63 ≤ decimal (digits string) + 1 ∨
        decimal (digits string) % 2 ^ 32 = 2 ^ 32 - 1)

/-- No length is asked for, or the number behind `Content-Length:` ends. -/
def Settled (input : List Byte) : Prop := ∀ string, asked input = some string → Ends string

theorem storeInt_all_ones (value : Nat) :
    storeInt value = -1 ↔ 2 ^ 63 ≤ value + 1 ∨ value % 2 ^ 32 = 2 ^ 32 - 1 := by
  unfold storeInt toInt
  rw [Int.bmod_def]
  split <;> omega

theorem storeInt_zero (value : Nat) :
    storeInt (-value) = 0 ↔ 2 ^ 63 ≤ value ∨ value % 2 ^ 32 = 0 := by
  unfold storeInt toInt
  rw [Int.bmod_def]
  split <;> omega

theorem storeInt_next (value : Nat) (small : value + 1 < 2 ^ 63) :
    storeInt (value + 1 : Nat) ≠ storeInt value ∧
      storeInt (-(value + 1 : Nat)) ≠ storeInt (-value) := by
  unfold storeInt toInt
  simp only [Int.bmod_def]
  constructor <;> split <;> split <;> omega

theorem Ends.steady {string : List Byte} (ends : Ends string) (more : List Byte) :
    atoi (string ++ more) = atoi string := by
  by_cases zero : 0 ∈ string
  · exact atoi_zero string more zero
  · by_cases stops : ∃ char ∈ unsigned string, isDigit char = false
    · exact atoi_stops string more stops
    · obtain ⟨large, stored⟩ := ends.resolve_left stops
      have through : ∀ char ∈ unsigned string, isDigit char = true := by
        intro char member
        by_contra fails
        exact stops ⟨char, member, by simpa using fails⟩
      have written : skipSpace string ≠ [] := by
        intro blank
        simp [digits, unsigned, negative, blank, decimal] at large
      obtain ⟨sign, longer⟩ := digits_append string (cstr more) through (Or.inl written)
      rw [atoi_append _ _ zero, atoi_number, cstr_eq _ zero, number, number, sign, longer]
      by_cases empty : (cstr more).takeWhile isDigit = []
      · rw [empty, List.append_nil]
      · have beyond := decimal_append (digits string) _ empty
        by_cases minus : negative string = true
        · rw [if_pos minus] at stored ⊢
          rw [if_pos minus, (storeInt_zero _).mpr stored, (storeInt_zero _).mpr (by omega)]
        · rw [if_neg minus] at stored ⊢
          rw [if_neg minus, (storeInt_all_ones _).mpr stored,
            (storeInt_all_ones _).mpr (by omega)]

theorem clean_of_through (string : List Byte)
    (through : ∀ char ∈ unsigned string, isDigit char = true) : 0 ∉ string := by
  intro zero
  rw [← List.takeWhile_append_dropWhile (p := isSpace) (l := string)] at zero
  rcases List.mem_append.mp zero with blank | rest
  · exact absurd (List.mem_takeWhile_imp blank) (by decide)
  · have plain : 0 ∉ unsigned string := fun member => absurd (through 0 member) (by decide)
    change 0 ∈ skipSpace string at rest
    unfold unsigned at plain
    split at plain
    · rename_i sign
      cases shape : skipSpace string with
      | nil => simp [shape] at rest
      | cons first later =>
          rw [negative, shape] at sign
          rw [shape, List.drop_one, List.tail_cons] at plain
          rw [shape] at rest
          rcases List.mem_cons.mp rest with same | inside
          · rw [← same] at sign
            simp at sign
          · exact plain inside
    · exact plain rest

theorem atoi_digit (string : List Byte) (digit : Byte) (plain : isDigit digit = true)
    (through : ∀ char ∈ unsigned string, isDigit char = true) :
    atoi (string ++ [digit]) =
      if negative string then
        storeInt (-(decimal (digits string) * 10 + (digit.toNat - 48) : Nat))
      else storeInt (decimal (digits string) * 10 + (digit.toNat - 48) : Nat) := by
  have single : ∀ char ∈ [digit], isDigit char = true := List.forall_mem_singleton.mpr plain
  obtain ⟨sign, longer⟩ := digits_append string [digit] through (Or.inr single)
  have clean : 0 ∉ string ++ [digit] := by
    intro member
    rcases List.mem_append.mp member with inside | last
    · exact clean_of_through string through inside
    · exact (digit_plain digit plain).2.2.2 (List.mem_singleton.mp last).symm
  rw [atoi_number, cstr_eq _ clean, number, sign, longer,
    List.takeWhile_eq_self_iff.mpr single, decimal_snoc]
  split <;> rfl

theorem changes_of_open {string : List Byte} (runs : ¬ Ends string) :
    ∃ digit, atoi (string ++ [digit]) ≠ atoi string := by
  rw [Ends, not_or] at runs
  obtain ⟨stops, small⟩ := runs
  have through : ∀ char ∈ unsigned string, isDigit char = true := by
    intro char member
    by_contra fails
    exact stops ⟨char, member, by simpa using fails⟩
  have zero := atoi_digit string 48 (by decide) through
  have one := atoi_digit string 49 (by decide) through
  by_contra steady
  simp only [not_exists, not_not] at steady
  rw [steady] at zero one
  change _ = if negative string then storeInt (-(decimal (digits string) * 10 : Nat))
    else storeInt (decimal (digits string) * 10 : Nat) at zero
  change _ = if negative string then storeInt (-(decimal (digits string) * 10 + 1 : Nat))
    else storeInt (decimal (digits string) * 10 + 1 : Nat) at one
  -- One of the digits 0 and 1 changes the value, unless both take it beyond `long`.
  by_cases large : 2 ^ 63 ≤ decimal (digits string) * 10
  · -- A zero makes it the end of `long`, which the number was not stored as.
    rw [atoi_number, cstr_eq _ (clean_of_through string through), number] at zero
    apply small
    refine ⟨large, ?_⟩
    by_cases minus : negative string = true
    · rw [if_pos minus] at zero ⊢
      rw [if_pos minus, (storeInt_zero _).mpr (Or.inl large)] at zero
      exact (storeInt_zero _).mp zero
    · rw [if_neg minus] at zero ⊢
      have end_of_long := (storeInt_all_ones (decimal (digits string) * 10)).mpr (by omega)
      rw [if_neg minus, end_of_long] at zero
      exact (storeInt_all_ones _).mp zero
  · have differ := storeInt_next (decimal (digits string) * 10) (by omega)
    rw [zero] at one
    split at one
    · exact differ.2 one.symm
    · exact differ.1 one.symm

/-! Every input. -/

theorem final_of_refused (input : List Byte) (content_length : Int)
    (refused : ∀ more, ParseHttpHeader (input ++ more) = (-1, input ++ more, content_length)) :
    Final input := by
  have here := refused []
  rw [List.append_nil] at here
  constructor
  · intro _ more
    rw [here, refused]
    exact ⟨rfl, rfl⟩
  · intro code
    rw [here] at code
    cases code
  · intro _
    rw [here]

theorem final_of_accepted (input after : List Byte) (content_length : Int)
    (accepted : ∀ more, ParseHttpHeader (input ++ more) = (0, after ++ more, content_length)) :
    Final input := by
  have here := accepted []
  rw [List.append_nil, List.append_nil] at here
  constructor
  · intro _ more
    rw [here, accepted]
    exact ⟨rfl, rfl⟩
  · intro _ more
    rw [here, accepted]
  · intro code
    rw [here] at code
    cases code

theorem headless_final (input : List Byte) (missing : input.dropInfix? crlfcrlf = none) :
    Final input := by
  have nowhere : find input crlfcrlf = none := by rw [find, missing]
  by_cases long : 10240 < input.length
  · apply final_of_refused input (-1)
    intro more
    cases found : (input ++ more).dropInfix? crlfcrlf with
    | none =>
        simp only [ParseHttpHeader, find, found]
        rw [if_pos (by rw [List.length_append]; omega)]
    | some parts =>
        have reaches := Occurrence.split_reaches _ _ _ _ _ missing found
        rw [crlfcrlf_length] at reaches
        rw [parse_head _ _ _ found, if_pos (by omega)]
  · have here : ParseHttpHeader input = (1, input, -1) := by
      simp only [ParseHttpHeader, nowhere]
      exact if_neg long
    constructor
    · intro code
      rw [here] at code
      rcases code with code | code <;> cases code
    · intro code
      rw [here] at code
      cases code
    · intro _
      rw [here]

theorem final_of_ends (input after tail : List Byte)
    (parsed : ∀ more, ParseHttpHeader (input ++ more) =
      if atoi (tail ++ (after ++ more)) < 0 then
        (-1, input ++ more, atoi (tail ++ (after ++ more)))
      else (0, after ++ more, atoi (tail ++ (after ++ more)))) :
    Final input ↔ Ends (tail ++ after) := by
  simp only [← List.append_assoc tail] at parsed
  constructor
  · intro final
    by_contra runs
    obtain ⟨digit, changed⟩ := changes_of_open runs
    have length : ∀ more, (ParseHttpHeader (input ++ more)).2.2 = atoi (tail ++ after ++ more) := by
      intro more
      rw [parsed]
      split <;> rfl
    have code : (ParseHttpHeader input).1 = 0 ∨ (ParseHttpHeader input).1 = -1 := by
      have here := parsed []
      rw [List.append_nil] at here
      rw [here]
      split
      · exact Or.inr rfl
      · exact Or.inl rfl
    have here := length []
    have same := (final.verdict code [digit]).2
    rw [List.append_nil, List.append_nil] at here
    rw [length, here] at same
    exact changed same
  · intro ends
    simp only [ends.steady] at parsed
    by_cases below : atoi (tail ++ after) < 0
    · exact final_of_refused input _ fun more => by rw [parsed, if_pos below]
    · exact final_of_accepted input after _ fun more => by rw [parsed, if_neg below]

/-- A verdict is final exactly when no later byte can be read as part of the length. -/
theorem final_iff (input : List Byte) : Final input ↔ Settled input := by
  have unasked : ∀ string, none = some string → Ends string := by
    intro string there
    cases there
  cases found : input.dropInfix? crlfcrlf with
  | none =>
      have nothing : asked input = none := by simp only [asked, found]
      rw [Settled, nothing]
      exact iff_of_true (headless_final input found) unasked
  | some parts =>
      obtain ⟨before, after⟩ := parts
      -- The bytes that follow change nothing of the header.
      have parsed : ∀ more, _ := fun more =>
        parse_head (input ++ more) before (after ++ more)
          (Occurrence.split_append _ _ _ _ more found)
      simp only [Settled, asked, found]
      by_cases long : 10240 < before.length + 4
      · simp only [if_pos long] at parsed
        rw [if_pos (Or.inl long)]
        exact iff_of_true (final_of_refused input _ parsed) unasked
      · simp only [if_neg long] at parsed
        by_cases marked : chunkedMark <:+: before ++ crlfcrlf
        · simp only [if_pos marked] at parsed
          rw [if_pos (Or.inr marked)]
          exact iff_of_true (final_of_accepted input _ _ parsed) unasked
        · simp only [if_neg marked] at parsed
          rw [if_neg (not_or.mpr ⟨long, marked⟩)]
          cases field : (before ++ crlfcrlf).dropInfix? lengthMark with
          | none =>
              simp only [field] at parsed
              exact iff_of_true (final_of_refused input _ parsed) unasked
          | some parts =>
              simp only [field] at parsed
              rw [final_of_ends input after parts.2 parsed]
              simp

/-- Nothing but white space behind the field, and a digit in the body. -/
def blankLength : List Byte := text "HTTP/1.1 200 OK\r\nContent-Length:" ++ crlfcrlf

/-- The verdict is given, and the length is 5 with the next byte. -/
theorem blank_length_changes : ¬ ∀ input, Final input := by
  intro final
  have same := ((final blankLength).verdict (Or.inl (by decide +kernel)) (text "5")).2
  revert same
  decide +kernel

end AsrServer.HttpHeader
