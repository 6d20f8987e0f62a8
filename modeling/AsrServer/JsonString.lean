import AsrServer.Utf8Units

/-!
`format_json_string`: a table of replacements for single units, over the units of the
text. The table has the line feed, both quotation marks and the backslash.
-/

namespace AsrServer.JsonString

open Bytes JsonContent Utf8Units

def replacewords : List (List Byte × List Byte) :=
  [(text "\n", text "\\\n"), (text "\"", text "\\\""), (text "\'", text "\\\'"),
    (text "\\", text "\\\\")]

def replaced (word : List Byte) : List Byte := (replacewords.lookup word).getD word

def format_json_string (src rlt : List Byte) : Except Ret (List Byte) :=
  (split_units src).map fun ret => rlt ++ ret.flatMap replaced

/-- What is written for a text is content of a string literal with that value. -/
def Formats (chars : List Char) : Prop :=
  ∃ rlt, format_json_string (utf8 chars) [] = .ok rlt ∧
    Literal (0x22 :: rlt ++ [0x22]) chars

/-! One character. -/

theorem encode_injective (one other : Char)
    (same : String.utf8EncodeChar one = String.utf8EncodeChar other) : one = other :=
  (utf8_front one other [] [] (by rw [same])).1

theorem replaced_other (char : Char) (feed : char ≠ '\n') (quote : char ≠ '"')
    (apostrophe : char ≠ '\'') (backslash : char ≠ '\\') :
    replaced (String.utf8EncodeChar char) = String.utf8EncodeChar char := by
  have missing (other : Char) (different : char ≠ other) :
      (String.utf8EncodeChar char == String.utf8EncodeChar other) = false := by
    rw [beq_eq_false_iff_ne]
    exact fun same => different (encode_injective _ _ same)
  have keys : text "\n" = String.utf8EncodeChar '\n' ∧ text "\"" = String.utf8EncodeChar '"' ∧
      text "\'" = String.utf8EncodeChar '\'' ∧ text "\\" = String.utf8EncodeChar '\\' := by decide
  simp only [replaced, replacewords, keys, List.lookup_cons, List.lookup_nil, missing _ feed,
    missing _ quote, missing _ apostrophe, missing _ backslash, Option.getD_none]

theorem content_short (char : Char) (letter : Byte) (rest : List Byte) (value : List Char)
    (written : replaced (String.utf8EncodeChar char) = [0x5c, letter]) (other : letter ≠ 0x75) :
    Content (replaced (String.utf8EncodeChar char) ++ rest) value ↔
      ∃ stands later, simple letter = some stands ∧ value = stands :: later ∧
        Content rest later := by
  rw [written]
  exact content_escape letter rest value other

/-- What is written for one character is read back as that character, or not at all. -/
theorem content_replaced (char : Char) (rest : List Byte) (value : List Char) :
    Content (replaced (String.utf8EncodeChar char) ++ rest) value ↔
      (0x20 ≤ char.toNat ∧ char ≠ '\'') ∧ ∃ later, value = char :: later ∧ Content rest later := by
  by_cases feed : char = '\n'
  · subst feed
    rw [content_short '\n' 0x0a rest value (by decide) (by decide)]
    simp [simple]
  by_cases quote : char = '"'
  · subst quote
    rw [content_short '"' 0x22 rest value (by decide) (by decide)]
    simp [simple]
  by_cases apostrophe : char = '\''
  · subst apostrophe
    rw [content_short '\'' 0x27 rest value (by decide) (by decide)]
    simp [simple]
  by_cases backslash : char = '\\'
  · subst backslash
    rw [content_short '\\' 0x5c rest value (by decide) (by decide)]
    simp [simple]
  rw [replaced_other char feed quote apostrophe backslash, content_char _ _ _ backslash]
  simp [Unescaped, quote, apostrophe, backslash]

/-! A whole text. -/

theorem content_formatted (chars value : List Char) :
    Content ((chars.map String.utf8EncodeChar).flatMap replaced) value ↔
      value = chars ∧ ∀ char ∈ chars, 0x20 ≤ char.toNat ∧ char ≠ '\'' := by
  induction chars generalizing value with
  | nil => simpa using content_nil value
  | cons char chars ih =>
      rw [List.map_cons, List.flatMap_cons, content_replaced]
      simp only [ih, List.forall_mem_cons]
      constructor
      · rintro ⟨plain, later, rfl, rfl, others⟩
        exact ⟨rfl, plain, others⟩
      · rintro ⟨rfl, plain, others⟩
        exact ⟨plain, chars, rfl, rfl, others⟩

theorem format_whole (chars : List Char) (short : (utf8 chars).length < 2 ^ 31) :
    format_json_string (utf8 chars) [] =
      .ok ((chars.map String.utf8EncodeChar).flatMap replaced) := by
  rw [format_json_string, split_units, toInt_eq _ (by omega) (by omega), Int.toNat_natCast,
    split_loop_whole]
  rfl

theorem format_cut (chars : List Char) (rlt : List Byte) (long : 2 ^ 31 ≤ (utf8 chars).length)
    (ran : format_json_string (utf8 chars) [] = .ok rlt) :
    ∃ front, front ≠ chars ∧ rlt = (front.map String.utf8EncodeChar).flatMap replaced := by
  have high := toInt_high (utf8 chars).length
  rw [format_json_string, split_units] at ran
  rcases split_loop_encoded chars (toInt (utf8 chars).length).toNat (by omega) with
    ⟨front, back, split, count, units⟩ | failed
  · rw [units] at ran
    cases ran
    refine ⟨front, ?_, rfl⟩
    rintro rfl
    omega
  · rw [failed] at ran
    cases ran

/-- The text is formatted as JSON has it if and only if it has no control character and no
apostrophe, and its length is an `int`. -/
theorem formats_iff (chars : List Char) :
    Formats chars ↔ (utf8 chars).length < 2 ^ 31 ∧
      ∀ char ∈ chars, 0x20 ≤ char.toNat ∧ char ≠ '\'' := by
  by_cases short : (utf8 chars).length < 2 ^ 31
  · rw [Formats, format_whole chars short]
    simp only [Except.ok.injEq, ↓existsAndEq, literal_iff, content_formatted, short, true_and]
  · simp only [short, false_and, iff_false]
    rintro ⟨rlt, ran, literal⟩
    obtain ⟨front, other, rfl⟩ := format_cut chars rlt (by omega) ran
    rw [literal_iff, content_formatted] at literal
    exact other literal.1.symm

/-- An apostrophe gets a backslash that JSON does not know. -/
theorem apostrophe_escaped : ¬ ∀ chars : List Char, Formats chars := by
  intro formats
  obtain ⟨rlt, ran, literal⟩ := formats ['\'']
  rw [format_whole ['\''] (by decide)] at ran
  cases ran
  rw [literal_iff, content_formatted] at literal
  exact (literal.2 '\'' (by decide)).2 rfl

end AsrServer.JsonString
