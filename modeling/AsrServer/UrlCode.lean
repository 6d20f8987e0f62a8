import AsrServer.RequestHeader

/-!
URL encoding and its two decoders: `URLEncode` and `URLDecode` of http.cpp, and
`url_utf8_decode` of util_common.cpp, which works on C memory with a length and a
buffer. The C decoder may look one character past the end of its input for
the second digit of an escape. What stands there is the rest of the string or its NUL.
-/

namespace AsrServer.UrlCode

open Bytes RequestHeader

def isxdigit (char : Byte) : Bool :=
  isDigit char || (97 ≤ char && char ≤ 102) || (65 ≤ char && char ≤ 70)

def unhex (char : Byte) : Byte := if char < 64 then char - 48 else (char &&& 15) + 9

/-- none is -1. -/
def char2num (char : Byte) : Option Byte :=
  if 48 ≤ char && char ≤ 57 then some (char - 48)
  else if 97 ≤ char && char ≤ 102 then some (char - 97 + 10)
  else if 65 ≤ char && char ≤ 70 then some (char - 65 + 10)
  else none

def URLDecode : List Byte → List Byte
  | [] => []
  | char :: rest =>
      if char = 43 then 32 :: URLDecode rest
      else if char = 37 then
        match rest with
        | first :: second :: later =>
            match char2num first, char2num second with
            | some high, some low => (high <<< 4 ||| low) :: URLDecode later
            | _, _ => char :: URLDecode (first :: second :: later)
        | [first] => char :: URLDecode [first]
        | [] => [char]
      else char :: URLDecode rest

/-- A digit of `%X`. -/
def hexDigit (value : Byte) : Byte := if value < 10 then 48 + value else 55 + value

/-- `snprintf(s, 8, "%%%.2X", char)`. -/
def escape (char : Byte) : List Byte := [37, hexDigit (char >>> 4), hexDigit (char &&& 15)]

def URLEncode (input : List Byte) : List Byte := input.flatMap escape

/-- The loop of `url_utf8_decode`: `room` is `dst_end - dst_uri`, `left` is
`url_end - url`, and `url` is the memory from the pointer on. -/
def decode_loop : Nat → List Byte → Int → List Byte
  | 0, _, _ => []
  | room + 1, url, left =>
      if 0 < left then
        if url.getD 0 0 = 43 then 32 :: decode_loop room (url.drop 1) (left - 1)
        else if url.getD 0 0 = 37 ∧ 2 ≤ left ∧ isxdigit (url.getD 1 0) ∧
            isxdigit (url.getD 2 0) then
          (unhex (url.getD 1 0) <<< 4 ||| unhex (url.getD 2 0)) ::
            decode_loop room (url.drop 3) (left - 3)
        else url.getD 0 0 :: decode_loop room (url.drop 1) (left - 1)
      else []

/-- The bytes written to `dst` ahead of the NUL; what is returned is their number. -/
def url_utf8_decode (url : List Byte) (url_len : Int) (max_len : Nat) : List Byte :=
  decode_loop (max_len - 1) url url_len

/-- The same text under another name in the source. -/
def url_utf16_decode (url : List Byte) (url_len : Int) (max_len : Nat) : List Byte :=
  decode_loop (max_len - 1) url url_len

/-! Digits. -/

theorem digit_cases (char : Byte) :
    (isxdigit char = true ∧ char2num char = some (unhex char)) ∨
      (isxdigit char = false ∧ char2num char = none) := by
  revert char
  exact forall_byte (by decide +kernel)

/-- Two digits written are read back, and no digit is a character of its own. -/
theorem escape_digits (char : Byte) :
    char2num (hexDigit (char >>> 4)) = some (char >>> 4) ∧
      char2num (hexDigit (char &&& 15)) = some (char &&& 15) ∧
      (char >>> 4) <<< 4 ||| (char &&& 15) = char := by
  revert char
  exact forall_byte (by decide +kernel)

/-! `URLDecode`. An escape stands at the front of a text or it does not. -/

def escaped : List Byte → Option (Byte × List Byte)
  | 37 :: first :: second :: later =>
      if isxdigit first ∧ isxdigit second then
        some (unhex first <<< 4 ||| unhex second, later)
      else none
  | _ => none

theorem escaped_parts (text later : List Byte) (char : Byte)
    (found : escaped text = some (char, later)) :
    ∃ first second, text = 37 :: first :: second :: later ∧ isxdigit first = true ∧
      isxdigit second = true ∧ char = unhex first <<< 4 ||| unhex second := by
  unfold escaped at found
  split at found
  · split at found
    · rename_i first second _ digits
      cases found
      exact ⟨first, second, rfl, digits.1, digits.2, rfl⟩
    · cases found
  · cases found

theorem escaped_length (text later : List Byte) (char : Byte)
    (found : escaped text = some (char, later)) : text.length = later.length + 3 := by
  obtain ⟨first, second, rfl, _⟩ := escaped_parts text later char found
  rfl

theorem decode_escaped (text later : List Byte) (char : Byte)
    (found : escaped text = some (char, later)) : URLDecode text = char :: URLDecode later := by
  obtain ⟨first, second, rfl, high, low, rfl⟩ := escaped_parts text later char found
  have read (digit : Byte) (hex : isxdigit digit = true) :
      char2num digit = some (unhex digit) := by
    rcases digit_cases digit with ⟨_, value⟩ | ⟨other, _⟩
    · exact value
    · rw [other] at hex
      cases hex
  rw [URLDecode]
  simp [read first high, read second low]

theorem decode_plain (char : Byte) (rest : List Byte) (absent : escaped (char :: rest) = none) :
    URLDecode (char :: rest) = (if char = 43 then 32 else char) :: URLDecode rest := by
  rw [URLDecode.eq_def]
  by_cases plus : char = 43
  · simp [plus]
  · by_cases percent : char = 37
    · subst percent
      match rest with
      | [] => simp [URLDecode]
      | [first] => simp
      | first :: second :: later =>
          simp only [escaped, ite_eq_right_iff, reduceCtorEq, imp_false, not_and] at absent
          rcases digit_cases first with ⟨digit, high⟩ | ⟨_, high⟩
          · rcases digit_cases second with ⟨other, _⟩ | ⟨_, low⟩
            · exact absurd other (absent digit)
            · simp [high, low]
          · simp [high]
    · simp [plus, percent]

@[elab_as_elim] theorem escape_induction {motive : List Byte → Prop} (nil : motive [])
    (escape : ∀ text char later, escaped text = some (char, later) → motive later → motive text)
    (plain : ∀ char rest, escaped (char :: rest) = none → motive rest → motive (char :: rest))
    (text : List Byte) : motive text := by
  induction size : text.length using Nat.strongRecOn generalizing text with
  | ind length ih =>
      cases text with
      | nil => exact nil
      | cons char rest =>
          cases found : escaped (char :: rest) with
          | none =>
              apply plain char rest found
              exact ih rest.length (by simp [← size]) rest rfl
          | some parts =>
              have shorter := escaped_length _ parts.2 parts.1 found
              apply escape _ parts.1 parts.2 found
              exact ih parts.2.length (by omega) parts.2 rfl

theorem decode_length (text : List Byte) :
    (URLDecode text).length ≤ text.length ∧ text.length ≤ 3 * (URLDecode text).length := by
  induction text using escape_induction with
  | nil => simp [URLDecode]
  | escape text char later found ih =>
      have size := escaped_length text later char found
      rw [decode_escaped text later char found, List.length_cons]
      omega
  | plain char rest unescaped ih =>
      rw [decode_plain char rest unescaped, List.length_cons, List.length_cons]
      omega

theorem decode_eq_nil (text : List Byte) : URLDecode text = [] ↔ text = [] := by
  have sizes := decode_length text
  rw [← List.length_eq_zero_iff, ← List.length_eq_zero_iff]
  omega

structure Unescaped (text : List Byte) : Prop where
  plus : 43 ∉ text
  percent : ∀ rest, rest <:+ text → escaped rest = none

theorem Unescaped.suffix {text rest : List Byte} (clean : Unescaped text)
    (behind : rest <:+ text) : Unescaped rest := by
  constructor
  · intro member
    exact clean.plus (behind.subset member)
  · intro last further
    exact clean.percent last (further.trans behind)

theorem decode_eq_self_iff (text : List Byte) : URLDecode text = text ↔ Unescaped text := by
  constructor
  · intro same
    induction text using escape_induction with
    | nil => exact ⟨by simp, by simp [escaped]⟩
    | escape text char later found ih =>
        have size := escaped_length text later char found
        have shorter := (decode_length later).1
        have lengths := congrArg List.length same
        rw [decode_escaped text later char found, List.length_cons] at lengths
        omega
    | plain char rest unescaped ih =>
        rw [decode_plain char rest unescaped, List.cons.injEq] at same
        have behind := ih same.2
        constructor
        · rw [List.mem_cons, not_or]
          refine ⟨?_, behind.plus⟩
          rintro rfl
          exact absurd same.1 (by decide)
        · intro last suffix
          rcases List.suffix_cons_iff.mp suffix with whole | further
          · rw [whole]
            exact unescaped
          · exact behind.percent last further
  · intro clean
    induction text with
    | nil => rfl
    | cons char rest ih =>
        have other : char ≠ 43 := fun plus => clean.plus (by simp [plus])
        rw [decode_plain char rest (clean.percent _ List.suffix_rfl), if_neg other,
          ih (clean.suffix (List.suffix_cons char rest))]

theorem decode_front (front rest : List Byte) (plus : 43 ∉ front) (percent : 37 ∉ front) :
    URLDecode (front ++ rest) = front ++ URLDecode rest := by
  induction front with
  | nil => rfl
  | cons char later ih =>
      rw [List.mem_cons, not_or] at plus percent
      have absent : escaped (char :: (later ++ rest)) = none := by
        unfold escaped
        split
        · rename_i same
          exact absurd (List.cons.inj same).1.symm percent.1
        · rfl
      rw [List.cons_append, decode_plain char _ absent, if_neg (Ne.symm plus.1),
        ih plus.2 percent.2, List.cons_append]

theorem decode_escape (char : Byte) (rest : List Byte) :
    URLDecode (escape char ++ rest) = char :: URLDecode rest := by
  obtain ⟨high, low, whole⟩ := escape_digits char
  simp only [escape, List.cons_append, List.nil_append]
  rw [URLDecode]
  simp [high, low, whole]

/-- `URLDecode` undoes `URLEncode`, whatever follows. -/
theorem decode_encode (value rest : List Byte) :
    URLDecode (URLEncode value ++ rest) = value ++ URLDecode rest := by
  induction value with
  | nil => rfl
  | cons char later ih =>
      simp only [URLEncode, List.flatMap_cons, List.append_assoc]
      rw [decode_escape, List.cons_append]
      exact congrArg (List.cons char) ih

/-! The C decoder is `URLDecode` cut to the room there is, when no digit stands
behind the input, or when the input does not end inside an escape. -/

/-- What one round of the loop takes from memory: how many characters, and the byte
they stand for. -/
def character (memory : List Byte) (left : Int) : Nat × Byte :=
  if memory.getD 0 0 = 43 then (1, 32)
  else if memory.getD 0 0 = 37 ∧ 2 ≤ left ∧ isxdigit (memory.getD 1 0) ∧
      isxdigit (memory.getD 2 0) then
    (3, unhex (memory.getD 1 0) <<< 4 ||| unhex (memory.getD 2 0))
  else (1, memory.getD 0 0)

theorem decode_loop_character (room : Nat) (memory : List Byte) (left : Int)
    (more : 0 < left) :
    decode_loop (room + 1) memory left = (character memory left).2 ::
      decode_loop room (memory.drop (character memory left).1)
        (left - (character memory left).1) := by
  rw [decode_loop, if_pos more]
  unfold character
  split
  · rfl
  · split
    · rfl
    · rfl

theorem decode_loop_length (room : Nat) (memory : List Byte) (left : Int) :
    (decode_loop room memory left).length ≤ room := by
  induction room generalizing memory left with
  | zero => simp [decode_loop]
  | succ room ih =>
      by_cases more : 0 < left
      · rw [decode_loop_character room memory left more, List.length_cons]
        exact Nat.succ_le_succ (ih _ _)
      · rw [decode_loop, if_neg more]
        simp

/-- A text whose last two characters are the first two of an escape. -/
def Dangling (text : List Byte) : Prop :=
  ∃ front digit, text = front ++ [37, digit] ∧ isxdigit digit = true

/-- No escape reaches over the end of the text. -/
def Closed (text tail : List Byte) (left : Int) : Prop :=
  isxdigit (tail.getD 0 0) = false ∨ left = text.length ∧ ¬ Dangling text

theorem Dangling.behind {text front : List Byte} (dangling : Dangling text) :
    Dangling (front ++ text) := by
  obtain ⟨before, digit, rfl, hex⟩ := dangling
  exact ⟨front ++ before, digit, by simp, hex⟩

theorem Closed.rest {front text tail : List Byte} {left : Int}
    (closed : Closed (front ++ text) tail left) : Closed text tail (left - front.length) := by
  rcases closed with ends | ⟨whole, sound⟩
  · exact .inl ends
  · refine .inr ⟨?_, fun dangling => sound dangling.behind⟩
    rw [whole, List.length_append]
    omega

theorem character_escaped (text later tail : List Byte) (char : Byte) (left : Int)
    (found : escaped text = some (char, later)) (more : text.length ≤ left) :
    character (text ++ tail) left = (3, char) := by
  obtain ⟨first, second, rfl, high, low, rfl⟩ := escaped_parts text later char found
  have two : 2 ≤ left := by
    simp only [List.length_cons] at more
    omega
  simp [character, two, high, low]

theorem character_plain (char : Byte) (rest tail : List Byte) (left : Int)
    (raw : escaped (char :: rest) = none) (closed : Closed (char :: rest) tail left) :
    character (char :: rest ++ tail) left = (1, if char = 43 then 32 else char) := by
  unfold character
  simp only [List.cons_append, List.getD_cons_zero, List.getD_cons_succ]
  by_cases plus : char = 43
  · simp [plus]
  · rw [if_neg plus, if_neg plus, if_neg]
    rintro ⟨rfl, two, first, second⟩
    -- Both digits inside the text would be an escape; the second cannot be behind it.
    match rest with
    | [] =>
        rcases closed with ends | ⟨whole, _⟩
        · rw [List.nil_append, ends] at first
          cases first
        · simp only [List.length_cons, List.length_nil] at whole
          omega
    | [digit] =>
        rcases closed with ends | ⟨_, sound⟩
        · simp only [List.cons_append, List.nil_append, List.getD_cons_succ] at second
          rw [ends] at second
          cases second
        · exact sound ⟨[], digit, rfl, by simpa using first⟩
    | high :: low :: later =>
        simp only [List.cons_append, List.getD_cons_zero, List.getD_cons_succ] at first second
        simp [escaped, first, second] at raw

/-- The first characters of a text that stand for one byte, in either decoder. -/
structure Leads (part : List Byte) (char : Byte) (later : List Byte) : Prop where
  proper : 0 < part.length
  decoded : URLDecode (part ++ later) = char :: URLDecode later
  taken : ∀ tail left, ((part ++ later).length : Int) ≤ left → Closed (part ++ later) tail left →
    character (part ++ later ++ tail) left = (part.length, char)

@[elab_as_elim] theorem character_induction {motive : List Byte → Prop} (nil : motive [])
    (step : ∀ part char later, Leads part char later → motive later → motive (part ++ later))
    (text : List Byte) : motive text := by
  induction text using escape_induction with
  | nil => exact nil
  | escape text char later found ih =>
      obtain ⟨first, second, rfl, _⟩ := escaped_parts text later char found
      apply step [37, first, second] char later _ ih
      exact {
        proper := by simp
        decoded := decode_escaped _ later char found
        taken := fun tail left more _ => character_escaped _ later tail char left found more }
  | plain char rest raw ih =>
      apply step [char] (if char = 43 then 32 else char) rest _ ih
      exact {
        proper := by simp
        decoded := decode_plain char rest raw
        taken := fun tail left _ closed => character_plain char rest tail left raw closed }

theorem decode_loop_closed (text tail : List Byte) (room : Nat)
    (closed : Closed text tail text.length) :
    decode_loop room (text ++ tail) text.length = (URLDecode text).take room := by
  induction text using character_induction generalizing room with
  | nil =>
      cases room with
      | zero => simp [decode_loop]
      | succ room => simp [decode_loop, URLDecode]
  | step part char later leads ih =>
      cases room with
      | zero => simp [decode_loop]
      | succ room =>
          have proper := leads.proper
          have left : ((part ++ later).length : Int) - part.length = later.length := by
            rw [List.length_append]
            omega
          rw [decode_loop_character room _ _ (by rw [List.length_append]; omega),
            leads.taken tail _ (le_refl _) closed, leads.decoded, List.take_succ_cons,
            ← ih room (left ▸ closed.rest), left, List.append_assoc, List.drop_left]

theorem decode_loop_eq (text tail : List Byte) (room : Nat)
    (ends : isxdigit (tail.getD 0 0) = false) :
    decode_loop room (text ++ tail) text.length = (URLDecode text).take room :=
  decode_loop_closed text tail room (.inl ends)

end AsrServer.UrlCode
