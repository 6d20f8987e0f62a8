import AsrServer.JsonContent
import AsrServer.JsonReader
import AsrServer.Numbers

/-!
`Json::Reader` on documents that are JSON. The grammar says of a text which value it is for
and how many calls of `readValue` are open at once while it is read; white space may stand
wherever RFC 8259 lets it. The reader takes many other texts as well.
-/

namespace AsrServer.JsonDocument

open Bytes RequestHeader JsonReader JsonContent Numbers
open UrlCode (char2num)

/-! Numbers. -/

structure Run where
  digits : List Byte
  nonempty : digits ≠ []
  all : ∀ digit ∈ digits, isDigit digit = true

structure Exponent where
  mark : Byte
  sign : List Byte
  digits : Run
  marked : mark = 101 ∨ mark = 69
  signed : sign = [] ∨ sign = [43] ∨ sign = [45]

/-- Zeros in front are let through, as the reader does. -/
structure Number where
  minus : Bool
  whole : Run
  fraction : Option Run
  exponent : Option Exponent

def Exponent.text (exponent : Exponent) : List Byte :=
  exponent.mark :: (exponent.sign ++ exponent.digits.digits)

def fractionText : Option Run → List Byte
  | none => []
  | some fraction => 46 :: fraction.digits

def exponentText : Option Exponent → List Byte
  | none => []
  | some exponent => exponent.text

def Number.text (number : Number) : List Byte :=
  (if number.minus then [45] else []) ++ (number.whole.digits ++
    (fractionText number.fraction ++ exponentText number.exponent))

/-- The integer that is written; none where there is a fraction or an exponent. -/
def Number.integer (number : Number) : Option Int :=
  if number.fraction.isNone ∧ number.exponent.isNone then
    some (if number.minus then -(decimal number.whole.digits : Int)
      else decimal number.whole.digits)
  else none

/-- An `Int` from -2^63 to 2^31 - 1, a `UInt` from there to 2^64 - 1, and beyond that as with a
fraction what `double` makes of the text. -/
def Number.value (double : List Byte → Option (List Byte)) (number : Number) : Option Value :=
  match number.integer with
  | some value =>
      if -2 ^ 63 ≤ value ∧ value < 2 ^ 31 then some (.int value)
      else if 0 ≤ value ∧ value < 2 ^ 64 then some (.uint value.toNat)
      else (double number.text).map .real
  | none => (double number.text).map .real

/-! The grammar. -/

def isBlank (c : Byte) : Bool := c == 32 || c == 9 || c == 13 || c == 10

def Blank (gap : List Byte) : Prop := ∀ c ∈ gap, isBlank c = true

section Grammar

variable (double : List Byte → Option (List Byte))

/-- A later member of the same name takes the place of an earlier one. -/
def gathered (members : List (List Byte × Value)) (more : List (List Byte × Value)) :
    List (List Byte × Value) :=
  more.foldl (fun members member => assign member.1 member.2 members) members

mutual

inductive Element : Nat → List Byte → Value → Prop where
  | null : Element 1 (text "null") .null
  | yes : Element 1 (text "true") (.boolean true)
  | no : Element 1 (text "false") (.boolean false)
  | number (number : Number) {value : Value} (reads : number.value double = some value) :
      Element 1 number.text value
  | string {content : List Byte} {chars : List Char} (holds : Content content chars) :
      Element 1 (34 :: (content ++ [34])) (.string (utf8 chars))
  | emptyArray {gap : List Byte} (blank : Blank gap) : Element 1 (91 :: (gap ++ [93])) (.array [])
  | array {depth : Nat} {bytes : List Byte} {values : List Value}
      (elements : Elements depth bytes values) :
      Element (depth + 1) (91 :: (bytes ++ [93])) (.array values)
  | emptyObject {gap : List Byte} (blank : Blank gap) :
      Element 1 (123 :: (gap ++ [125])) (.object [])
  | object {depth : Nat} {bytes : List Byte} {members : List (List Byte × Value)}
      (entries : Members depth bytes members) :
      Element (depth + 1) (123 :: (bytes ++ [125])) (.object (gathered [] members))

inductive Padded : Nat → List Byte → Value → Prop where
  | between {depth : Nat} {before bytes after : List Byte} {value : Value}
      (left : Blank before) (element : Element depth bytes value) (right : Blank after) :
      Padded depth (before ++ (bytes ++ after)) value

inductive Elements : Nat → List Byte → List Value → Prop where
  | last {depth : Nat} {bytes : List Byte} {value : Value} (padded : Padded depth bytes value) :
      Elements depth bytes [value]
  | more {depth deep : Nat} {bytes rest : List Byte} {value : Value} {values : List Value}
      (padded : Padded depth bytes value) (later : Elements deep rest values) :
      Elements (max depth deep) (bytes ++ 44 :: rest) (value :: values)

inductive Member : Nat → List Byte → List Byte × Value → Prop where
  | named {depth : Nat} {before content gap bytes : List Byte} {chars : List Char}
      {value : Value} (left : Blank before) (holds : Content content chars) (middle : Blank gap)
      (padded : Padded depth bytes value) :
      Member depth (before ++ 34 :: (content ++ 34 :: (gap ++ 58 :: bytes))) (utf8 chars, value)

inductive Members : Nat → List Byte → List (List Byte × Value) → Prop where
  | last {depth : Nat} {bytes : List Byte} {member : List Byte × Value}
      (entry : Member depth bytes member) : Members depth bytes [member]
  | more {depth deep : Nat} {bytes rest : List Byte} {member : List Byte × Value}
      {members : List (List Byte × Value)}
      (entry : Member depth bytes member) (later : Members deep rest members) :
      Members (max depth deep) (bytes ++ 44 :: rest) (member :: members)

end

end Grammar

/-! The members of an object. -/

theorem names_assign {α : Type} (name : List Byte) (value : α) (members : List (List Byte × α)) :
    (assign name value members).map Prod.fst =
      if name ∈ members.map Prod.fst then members.map Prod.fst
      else members.map Prod.fst ++ [name] := by
  induction members with
  | nil => rfl
  | cons member rest ih =>
      rw [assign]
      by_cases same : member.1 = name
      · simp [same]
      · rw [if_neg same, List.map_cons, ih]
        simp only [List.map_cons, List.mem_cons, Ne.symm same, false_or]
        split <;> rfl

theorem gathered_distinct (more : List (List Byte × Value)) (members : List (List Byte × Value))
    (distinct : (members.map Prod.fst).Nodup) :
    ((gathered members more).map Prod.fst).Nodup := by
  induction more generalizing members with
  | nil => exact distinct
  | cons member rest ih =>
      apply ih
      rw [names_assign]
      split
      · exact distinct
      · rename_i absent
        rw [List.nodup_append]
        refine ⟨distinct, List.nodup_singleton _, ?_⟩
        rintro name inside other same rfl
        rw [List.mem_singleton.mp same] at inside
        exact absent inside

theorem byte_apart (code : Nat) (small : code < 256) (quote : code ≠ 34) (slash : code ≠ 92) :
    UInt8.ofNat code ≠ 34 ∧ UInt8.ofNat code ≠ 92 := by
  constructor <;> intro same <;> have value := congrArg UInt8.toNat same <;>
    rw [UInt8.toNat_ofNat', Nat.mod_eq_of_lt small] at value
  · exact quote value
  · exact slash value

theorem plain_bytes (char : Char) (plain : Unescaped char) :
    ∀ byte ∈ String.utf8EncodeChar char, byte ≠ 34 ∧ byte ≠ 92 := by
  have quote : char.val.toNat ≠ 34 := fun same => plain.2.1 (Char.ext (UInt32.toNat_inj.mp same))
  have slash : char.val.toNat ≠ 92 := fun same => plain.2.2 (Char.ext (UInt32.toNat_inj.mp same))
  unfold String.utf8EncodeChar
  dsimp only
  split
  · simp only [List.mem_singleton, forall_eq]
    exact byte_apart _ (by omega) quote slash
  · split
    · simp only [List.mem_cons, List.not_mem_nil, or_false, forall_eq_or_imp, forall_eq]
      refine ⟨byte_apart _ ?_ ?_ ?_, byte_apart _ ?_ ?_ ?_⟩ <;> omega
    · split
      · simp only [List.mem_cons, List.not_mem_nil, or_false, forall_eq_or_imp, forall_eq]
        refine ⟨byte_apart _ ?_ ?_ ?_, byte_apart _ ?_ ?_ ?_, byte_apart _ ?_ ?_ ?_⟩ <;> omega
      · simp only [List.mem_cons, List.not_mem_nil, or_false, forall_eq_or_imp, forall_eq]
        refine ⟨byte_apart _ ?_ ?_ ?_, byte_apart _ ?_ ?_ ?_, byte_apart _ ?_ ?_ ?_,
          byte_apart _ ?_ ?_ ?_⟩ <;> omega

theorem hexDigit_read (digit : Byte) : (char2num digit).map UInt8.toNat = hexDigit digit := by
  revert digit
  exact forall_byte (by decide +kernel)

theorem hexDigit_plain (digit : Byte) (found : (hexDigit digit).isSome) :
    digit ≠ 34 ∧ digit ≠ 92 := by
  revert digit
  exact forall_byte (by decide +kernel)

theorem hex4_parts (digits : List Byte) (value : Nat) (four : hex4 digits = some value) :
    (∃ a b c d, digits = [a, b, c, d] ∧ decodeUnicodeEscapeSequence a b c d = some value) ∧
      ∀ digit ∈ digits, digit ≠ 34 ∧ digit ≠ 92 := by
  unfold hex4 at four
  split at four
  · rename_i a b c d
    simp only [Option.bind_eq_bind, Option.bind_eq_some_iff] at four
    obtain ⟨first, isFirst, second, isSecond, third, isThird, fourth, isFourth, total⟩ := four
    have plain (digit : Byte) (number : Nat) (known : hexDigit digit = some number) :=
      hexDigit_plain digit (Option.isSome_of_eq_some known)
    constructor
    · refine ⟨a, b, c, d, rfl, ?_⟩
      rw [← hexDigit_read, Option.map_eq_some_iff] at isFirst isSecond isThird isFourth
      obtain ⟨_, readFirst, rfl⟩ := isFirst
      obtain ⟨_, readSecond, rfl⟩ := isSecond
      obtain ⟨_, readThird, rfl⟩ := isThird
      obtain ⟨_, readFourth, rfl⟩ := isFourth
      simp only [decodeUnicodeEscapeSequence, readFirst, readSecond, readThird, readFourth]
      exact total
    · simp only [List.mem_cons, List.not_mem_nil, or_false, forall_eq_or_imp, forall_eq]
      exact ⟨plain a _ isFirst, plain b _ isSecond, plain c _ isThird, plain d _ isFourth⟩
  · cases four

theorem codePoint_encoded (char : Char) :
    codePointToUTF8 char.toNat = String.utf8EncodeChar char := by
  have two : ∀ code < 32, 0xC0 ||| code = code + 0xC0 := by decide
  have three : ∀ code < 16, 0xE0 ||| code = code + 0xE0 := by decide
  have four : ∀ code < 8, 0xF0 ||| code = code + 0xF0 := by decide
  have later : ∀ code < 64, 0x80 ||| code = code + 0x80 := by decide
  have masks (code : Nat) : 0x7 &&& code = code % 8 ∧ 0xf &&& code = code % 16 ∧
      0x1f &&& code = code % 32 ∧ 0x3f &&& code = code % 64 := by
    simp only [Nat.and_comm _ code]
    exact ⟨Nat.and_two_pow_sub_one_eq_mod code 3, Nat.and_two_pow_sub_one_eq_mod code 4,
      Nat.and_two_pow_sub_one_eq_mod code 5, Nat.and_two_pow_sub_one_eq_mod code 6⟩
  have inside : char.val.toNat ≤ 0x10FFFF := by
    have valid := char.valid
    unfold UInt32.isValidChar Nat.isValidChar at valid
    omega
  have mod (code size : Nat) (positive : 0 < size) : code % size < size := Nat.mod_lt code positive
  unfold codePointToUTF8 String.utf8EncodeChar Char.toNat
  simp only [masks, Nat.shiftRight_eq_div_pow, if_pos inside]
  rw [two _ (mod _ _ (by decide)), three _ (mod _ _ (by decide)), four _ (mod _ _ (by decide))]
  simp only [later _ (mod _ 64 (by decide))]

theorem simple_read (letter : Byte) (char : Char) (named : simple letter = some char) :
    letter ≠ 117 ∧ ∃ byte, unescape letter = some byte ∧ String.utf8EncodeChar char = [byte] := by
  unfold simple at named
  split_ifs at named <;> rename_i same <;> subst same <;> cases named <;> decide

theorem readString_plain (run rest : List Byte) (plain : ∀ byte ∈ run, byte ≠ 34 ∧ byte ≠ 92) :
    readString (run ++ rest) = readString rest := by
  induction run with
  | nil => rfl
  | cons byte run ih =>
      have here := plain byte (List.mem_cons_self ..)
      have later := ih fun other member => plain other (List.mem_cons_of_mem _ member)
      rw [List.cons_append, readString, later]
      · exact fun same => absurd same here.2
      · exact fun _ _ same => absurd same here.2
      · exact here.1

structure DecodeSteps : Prop where
  plain : ∀ c rest, c ≠ 34 → c ≠ 92 →
    decode_string (c :: rest) = (decode_string rest).map (c :: ·)
  escape : ∀ letter rest char, letter ≠ 117 → unescape letter = some char →
    decode_string (92 :: letter :: rest) = (decode_string rest).map (char :: ·)
  unit : ∀ a b c d rest unicode, decodeUnicodeEscapeSequence a b c d = some unicode →
    ¬ (0xD800 ≤ unicode ∧ unicode ≤ 0xDBFF) →
    decode_string (92 :: 117 :: a :: b :: c :: d :: rest) =
      (decode_string rest).map (codePointToUTF8 unicode ++ ·)
  pair : ∀ a b c d e f g h rest unicode surrogatePair,
    decodeUnicodeEscapeSequence a b c d = some unicode →
    0xD800 ≤ unicode ∧ unicode ≤ 0xDBFF →
    decodeUnicodeEscapeSequence e f g h = some surrogatePair →
    decode_string (92 :: 117 :: a :: b :: c :: d :: 92 :: 117 :: e :: f :: g :: h :: rest) =
      (decode_string rest).map (codePointToUTF8
        (0x10000 + ((unicode &&& 0x3FF) <<< 10) + (surrogatePair &&& 0x3FF)) ++ ·)

theorem decode_steps : DecodeSteps where
  plain c rest quote slash := by
    rw [decode_string]
    · exact quote
    · exact fun _ _ _ _ _ same => absurd same slash
    · exact fun same => absurd same slash
    · exact fun _ _ same => absurd same slash
  escape letter rest char other read := by
    rw [decode_string, read]
    exact fun _ _ _ _ _ same => absurd same other
  unit a b c d rest unicode read single := by
    rw [decode_string, read]
    simp only [if_neg single]
  pair a b c d e f g h rest unicode surrogatePair first half second := by
    rw [decode_string, first]
    simp only [if_pos half, second]

theorem decode_plain (run rest : List Byte) (plain : ∀ byte ∈ run, byte ≠ 34 ∧ byte ≠ 92) :
    decode_string (run ++ rest) = (decode_string rest).map (run ++ ·) := by
  induction run with
  | nil => simp
  | cons byte run ih =>
      have here := plain byte (List.mem_cons_self ..)
      have later := ih fun other member => plain other (List.mem_cons_of_mem _ member)
      rw [List.cons_append, decode_steps.plain _ _ here.1 here.2, later]
      simp [Option.map_map, Function.comp_def]

theorem content_scanned {content : List Byte} {chars : List Char} (holds : Content content chars)
    (rest : List Byte) : readString (content ++ 34 :: rest) = (true, rest) := by
  induction holds with
  | done => rw [List.nil_append, readString]
  | unescaped plain _ ih =>
      rw [List.append_assoc, readString_plain _ _ (plain_bytes _ plain)]
      exact ih
  | escaped named _ ih =>
      rw [List.cons_append, List.cons_append, readString]
      exact ih
  | unit four _ ih =>
      rw [List.cons_append, List.cons_append, readString, List.append_assoc,
        readString_plain _ _ (hex4_parts _ _ four).2]
      exact ih
  | pair first second _ _ _ _ ih =>
      rw [List.cons_append, List.cons_append, readString, List.append_assoc,
        readString_plain _ _ (hex4_parts _ _ first).2, List.cons_append, List.cons_append,
        readString, List.append_assoc, readString_plain _ _ (hex4_parts _ _ second).2]
      exact ih

theorem decode_unit (a b c d : Byte) (rest : List Byte) (char : Char)
    (read : decodeUnicodeEscapeSequence a b c d = some char.toNat) :
    decode_string (92 :: 117 :: a :: b :: c :: d :: rest) =
      (decode_string rest).map (String.utf8EncodeChar char ++ ·) := by
  have single : ¬ (0xD800 ≤ char.toNat ∧ char.toNat ≤ 0xDBFF) := by
    have valid := char.valid
    unfold UInt32.isValidChar Nat.isValidChar at valid
    unfold Char.toNat
    omega
  rw [decode_steps.unit _ _ _ _ _ _ read single, codePoint_encoded]

theorem joined_halves (high low : Nat) (leading : 0xD800 ≤ high ∧ high < 0xDC00)
    (trailing : 0xDC00 ≤ low ∧ low < 0xE000) :
    0x10000 + ((high &&& 0x3FF) <<< 10) + (low &&& 0x3FF) =
      0x10000 + (high - 0xD800) * 0x400 + (low - 0xDC00) := by
  have mask (half : Nat) : half &&& 0x3FF = half % 1024 := Nat.and_two_pow_sub_one_eq_mod half 10
  rw [mask, mask, Nat.shiftLeft_eq]
  omega

theorem decode_pair (a b c d e f g h : Byte) (rest : List Byte) (high low : Nat) (char : Char)
    (first : decodeUnicodeEscapeSequence a b c d = some high)
    (second : decodeUnicodeEscapeSequence e f g h = some low)
    (leading : 0xD800 ≤ high ∧ high < 0xDC00) (trailing : 0xDC00 ≤ low ∧ low < 0xE000)
    (joined : char.toNat = 0x10000 + (high - 0xD800) * 0x400 + (low - 0xDC00)) :
    decode_string (92 :: 117 :: a :: b :: c :: d :: 92 :: 117 :: e :: f :: g :: h :: rest) =
      (decode_string rest).map (String.utf8EncodeChar char ++ ·) := by
  have half : 0xD800 ≤ high ∧ high ≤ 0xDBFF := by omega
  rw [decode_steps.pair _ _ _ _ _ _ _ _ _ _ _ first half second,
    joined_halves high low leading trailing, ← joined, codePoint_encoded]

theorem content_decoded {content : List Byte} {chars : List Char}
    (holds : Content content chars) : decode_string content = some (utf8 chars) := by
  induction holds with
  | done => rfl
  | unescaped plain _ ih => rw [decode_plain _ _ (plain_bytes _ plain), ih, utf8_cons]; rfl
  | @escaped letter char rest value named _ ih =>
      obtain ⟨other, byte, read, encoded⟩ := simple_read letter char named
      rw [decode_steps.escape _ _ _ other read, ih, utf8_cons, encoded]
      rfl
  | unit four _ ih =>
      obtain ⟨⟨a, b, c, d, rfl, read⟩, _⟩ := hex4_parts _ _ four
      simp only [List.cons_append, List.nil_append]
      rw [decode_unit a b c d _ _ read, ih, utf8_cons]
      rfl
  | pair first second leading trailing joined _ ih =>
      obtain ⟨⟨a, b, c, d, rfl, one⟩, _⟩ := hex4_parts _ _ first
      obtain ⟨⟨e, f, g, h, rfl, other⟩, _⟩ := hex4_parts _ _ second
      simp only [List.cons_append, List.nil_append]
      rw [decode_pair a b c d e f g h _ _ _ _ one other leading trailing joined, ih, utf8_cons]
      rfl

/-! Tokens. -/

theorem skip_none (rest : List Byte) (other : (readToken rest).1.type_ ≠ .tokenComment) :
    skipCommentTokens rest = readToken rest := by
  unfold skipCommentTokens
  cases rest.length with
  | zero => rfl
  | succ fuel => rw [skip_comments, if_neg other]

theorem token_read (gap middle rest : List Byte) (c : Byte) (type : TokenType) (blank : Blank gap)
    (solid : isBlank c = false) (scanned : scanToken c (middle ++ rest) = (type, rest))
    (other : type ≠ .tokenComment) :
    readToken (gap ++ c :: (middle ++ rest)) = (⟨type, c :: middle⟩, rest) ∧
      skipCommentTokens (gap ++ c :: (middle ++ rest)) = (⟨type, c :: middle⟩, rest) := by
  have skipped : skipSpaces (gap ++ c :: (middle ++ rest)) = c :: (middle ++ rest) :=
    (takeWhile_run isBlank gap _ blank (stops_cons isBlank c _ solid)).2
  have token : readToken (gap ++ c :: (middle ++ rest)) = (⟨type, c :: middle⟩, rest) := by
    have size : (middle ++ rest).length + 1 - rest.length = (c :: middle).length := by
      rw [List.length_append, List.length_cons]
      omega
    unfold readToken
    rw [skipped]
    dsimp only
    rw [scanned, size, ← List.cons_append, List.take_left]
  refine ⟨token, ?_⟩
  rw [skip_none _ (by rw [token]; exact other), token]

theorem mark_read (gap rest : List Byte) (c : Byte) (type : TokenType) (blank : Blank gap)
    (solid : isBlank c = false) (scanned : scanToken c rest = (type, rest))
    (other : type ≠ .tokenComment) :
    readToken (gap ++ c :: rest) = (⟨type, [c]⟩, rest) ∧
      skipCommentTokens (gap ++ c :: rest) = (⟨type, [c]⟩, rest) :=
  token_read gap [] rest c type blank solid scanned other

theorem string_read (gap content rest : List Byte) (chars : List Char) (blank : Blank gap)
    (holds : Content content chars) :
    skipCommentTokens (gap ++ 34 :: (content ++ 34 :: rest)) =
      (⟨.tokenString, 34 :: (content ++ [34])⟩, rest) := by
  have scanned : scanToken 34 ((content ++ [34]) ++ rest) = (.tokenString, rest) := by
    rw [List.append_assoc, List.singleton_append]
    simp [scanToken, okToken, content_scanned holds]
  have token := (token_read gap (content ++ [34]) rest 34 .tokenString blank rfl scanned
    (by decide)).2
  rwa [List.append_assoc, List.singleton_append] at token

theorem string_decoded (content : List Byte) (chars : List Char) (holds : Content content chars) :
    decodeString ⟨.tokenString, 34 :: (content ++ [34])⟩ = some (utf8 chars) := by
  unfold decodeString
  rw [List.drop_one, List.tail_cons, List.dropLast_concat]
  exact content_decoded holds

/-! Numbers. -/

def Delimited (rest : List Byte) : Prop :=
  ∀ c ∈ rest.head?, isBlank c = true ∨ c = 44 ∨ c = 93 ∨ c = 125

theorem delimiter_plain (c : Byte) (delimiter : isBlank c = true ∨ c = 44 ∨ c = 93 ∨ c = 125) :
    isDigit c = false ∧ c ≠ 46 ∧ c ≠ 101 ∧ c ≠ 69 := by
  simp only [isBlank, Bool.or_eq_true, beq_iff_eq] at delimiter
  rcases delimiter with (((rfl | rfl) | rfl) | rfl) | rfl | rfl | rfl <;> decide

theorem digit_solid (c : Byte) (digit : isDigit c = true) :
    isBlank c = false ∧ c ≠ 46 ∧ c ≠ 93 ∧ c ≠ 45 ∧ c ≠ 43 ∧ c ≠ 123 ∧ c ≠ 125 ∧ c ≠ 91 ∧ c ≠ 34 ∧
      c ≠ 47 := by
  refine ⟨?_, ?_⟩
  · rw [← Bool.not_eq_true]
    intro blank
    simp only [isBlank, Bool.or_eq_true, beq_iff_eq] at blank
    rcases blank with ((rfl | rfl) | rfl) | rfl <;> exact absurd digit (by decide)
  · refine ⟨?_, ?_, ?_, ?_, ?_, ?_, ?_, ?_, ?_⟩ <;> rintro rfl <;> exact absurd digit (by decide)

theorem delimited_gap (gap rest : List Byte) (blank : Blank gap) (delimited : Delimited rest) :
    Delimited (gap ++ rest) := by
  cases gap with
  | nil => exact delimited
  | cons first later =>
      intro c same
      cases same
      exact .inl (blank _ (List.mem_cons_self ..))

theorem delimited_cons (c : Byte) (rest : List Byte) (mark : c = 44 ∨ c = 93 ∨ c = 125) :
    Delimited (c :: rest) := by
  intro other same
  cases same
  exact .inr mark

/-! `readNumber` in two parts. -/

def afterFraction (rest : List Byte) : List Byte :=
  match rest with
  | 46 :: fraction => fraction.dropWhile isDigit
  | other => other

def afterExponent (rest : List Byte) : List Byte :=
  match rest with
  | [] => []
  | mark :: exponent =>
      if mark = 101 ∨ mark = 69 then
        match exponent with
        | [] => []
        | sign :: digits =>
            if sign = 43 ∨ sign = 45 then digits.dropWhile isDigit
            else exponent.dropWhile isDigit
      else rest

theorem readNumber_parts (rest : List Byte) :
    readNumber rest = afterExponent (afterFraction (rest.dropWhile isDigit)) := rfl

theorem fraction_scanned (fraction : Option Run) (rest : List Byte)
    (start : ∀ c ∈ rest.head?, isDigit c = false ∧ c ≠ 46) :
    afterFraction (fractionText fraction ++ rest) = rest := by
  cases fraction with
  | none =>
      rw [fractionText, List.nil_append, afterFraction]
      rintro later rfl
      exact (start 46 rfl).2 rfl
  | some fraction =>
      exact (takeWhile_run isDigit _ _ fraction.all fun c same => (start c same).1).2

theorem exponent_scanned (exponent : Option Exponent) (rest : List Byte)
    (delimited : Delimited rest) : afterExponent (exponentText exponent ++ rest) = rest := by
  cases exponent with
  | none =>
      cases rest with
      | nil => rfl
      | cons mark later =>
          have plain := delimiter_plain mark (delimited mark rfl)
          rw [exponentText, List.nil_append]
          exact if_neg (by simp [plain])
  | some exponent =>
      have stops : Stops isDigit rest := fun c same => (delimiter_plain c (delimited c same)).1
      have scanned := (takeWhile_run isDigit _ rest exponent.digits.all stops).2
      rw [exponentText, Exponent.text, List.cons_append, List.append_assoc]
      refine (if_pos exponent.marked).trans ?_
      rcases exponent.signed with bare | plus | minus
      · rw [bare, List.nil_append]
        cases shape : exponent.digits.digits with
        | nil => exact absurd shape exponent.digits.nonempty
        | cons first later =>
            have digit := digit_solid first (exponent.digits.all first (by rw [shape]; simp))
            rw [shape] at scanned
            simp only [List.cons_append]
            rw [if_neg (by simp [digit])]
            exact scanned
      · rw [plus]
        exact scanned
      · rw [minus]
        exact scanned

/-- Behind the digits in front: a fraction, then an exponent, then something else. -/
theorem number_scanned (digits rest : List Byte) (fraction : Option Run)
    (exponent : Option Exponent) (all : ∀ digit ∈ digits, isDigit digit = true)
    (delimited : Delimited rest) :
    readNumber (digits ++ (fractionText fraction ++ (exponentText exponent ++ rest))) = rest := by
  have exponential : ∀ c ∈ (exponentText exponent ++ rest).head?, isDigit c = false ∧ c ≠ 46 := by
    intro c same
    cases exponent with
    | none =>
        have plain := delimiter_plain c (delimited c same)
        exact ⟨plain.1, plain.2.1⟩
    | some exponent =>
        cases same
        rcases exponent.marked with mark | mark <;> rw [mark] <;> decide
  have start : Stops isDigit (fractionText fraction ++ (exponentText exponent ++ rest)) := by
    cases fraction with
    | none => exact fun c same => (exponential c same).1
    | some fraction => exact stops_cons isDigit 46 _ rfl
  rw [readNumber_parts, (takeWhile_run isDigit digits _ all start).2,
    fraction_scanned fraction _ exponential, exponent_scanned exponent rest delimited]

theorem integer_loop_other (limit value : Nat) (digits : List Byte)
    (other : ∃ c ∈ digits, isDigit c = false) : integer_loop limit value digits = none := by
  induction digits generalizing value with
  | nil =>
      obtain ⟨_, member, _⟩ := other
      cases member
  | cons first rest ih =>
      rw [integer_loop]
      cases digit : isDigit first with
      | false => rfl
      | true =>
          obtain ⟨c, member, fails⟩ := other
          have later : c ∈ rest := by
            rcases List.mem_cons.mp member with rfl | later
            · rw [digit] at fails
              cases fails
            · exact later
          rw [ih _ ⟨c, later, fails⟩]
          simp

theorem digit_value (c : Byte) (digit : isDigit c = true) : c.toNat - 48 ≤ 9 := by
  simp only [isDigit, Bool.and_eq_true, decide_eq_true_eq, UInt8.le_iff_toNat_le] at digit
  have most : c.toNat ≤ 57 := digit.2
  omega

/-- The test before each step keeps the value within the limit, and only that. -/
theorem integer_loop_digits (limit : Nat) (before digits : List Byte) (large : 10 ≤ limit)
    (within : decimal before ≤ limit) (all : ∀ digit ∈ digits, isDigit digit = true) :
    integer_loop limit (decimal before) digits =
      if decimal (before ++ digits) ≤ limit then some (decimal (before ++ digits)) else none := by
  -- On the digits to come; those in `before` are within the limit.
  induction digits generalizing before with
  | nil => rw [integer_loop, List.append_nil, if_pos within]
  | cons first rest ih =>
      have digit := all first (List.mem_cons_self ..)
      have small := digit_value first digit
      have next := decimal_snoc before first
      have grows := decimal_append (before ++ [first]) rest
      have whole : before ++ first :: rest = before ++ [first] ++ rest := by simp
      rw [integer_loop, digit, whole, ← next]
      simp only [Bool.not_true, Bool.false_eq_true, if_false]
      split
      · rename_i beyond
        rw [if_neg]
        -- The last digit is too large, or there is another one and the value grows tenfold.
        rcases eq_or_ne rest [] with rfl | more
        · rw [List.append_nil]
          simp only [ne_eq, not_true_eq_false, false_or] at beyond
          omega
        · have tenfold := grows more
          omega
      · rename_i fits
        apply ih
        · rcases Nat.lt_trichotomy (decimal before) (limit / 10) with less | same | more
          · omega
          · have last : ¬ limit % 10 < first.toNat - 48 := by
              intro beyond
              exact fits ⟨same.ge, .inr (.inr beyond)⟩
            omega
          · exact absurd ⟨more.le, .inl more⟩ fits
        · exact fun other member => all other (List.mem_cons_of_mem _ member)

theorem integer_part (number : Number) (limit : Nat) (large : 10 ≤ limit) :
    integer_loop limit 0 (number.whole.digits ++
        (fractionText number.fraction ++ exponentText number.exponent)) =
      if (number.fraction.isNone ∧ number.exponent.isNone) ∧ decimal number.whole.digits ≤ limit
        then some (decimal number.whole.digits) else none := by
  cases fraction : number.fraction with
  | some fraction =>
      rw [integer_loop_other _ _ _ ⟨46, by simp [fractionText], rfl⟩]
      simp
  | none =>
      cases exponent : number.exponent with
      | some power =>
          have mark : isDigit power.mark = false := by
            rcases power.marked with mark | mark <;> rw [mark] <;> decide
          rw [integer_loop_other _ _ _ ⟨power.mark, by simp [exponentText, Exponent.text], mark⟩]
          simp
      | none =>
          simp only [fractionText, exponentText, List.append_nil, Option.isNone_none, and_self,
            true_and]
          exact integer_loop_digits limit [] number.whole.digits large (Nat.zero_le _)
            number.whole.all

theorem number_decoded (double : List Byte → Option (List Byte)) (number : Number) :
    decodeNumber double ⟨.tokenNumber, number.text⟩ = number.value double := by
  have read := integer_part number
  unfold decodeNumber Number.value Number.integer
  cases sign : number.minus with
  | true =>
      have shape : number.text = 45 :: (number.whole.digits ++
          (fractionText number.fraction ++ exponentText number.exponent)) := by
        simp [Number.text, sign]
      rw [shape, List.head?_cons, if_pos rfl, List.drop_one, List.tail_cons,
        read _ (by decide)]
      -- A fraction, an exponent or a value out of range is left to `decodeDouble`.
      by_cases whole : number.fraction.isNone ∧ number.exponent.isNone
      · by_cases fits : decimal number.whole.digits ≤ 2 ^ 63
        · have range : -2 ^ 63 ≤ -(decimal number.whole.digits : Int) ∧
              -(decimal number.whole.digits : Int) < 2 ^ 31 := by omega
          simp only [if_pos whole, if_pos (And.intro whole fits), if_true, if_pos range]
        · have low : ¬ (-2 ^ 63 ≤ -(decimal number.whole.digits : Int) ∧
              -(decimal number.whole.digits : Int) < 2 ^ 31) := by omega
          have negative : ¬ (0 ≤ -(decimal number.whole.digits : Int) ∧
              -(decimal number.whole.digits : Int) < 2 ^ 64) := by omega
          simp only [if_pos whole, if_true, if_neg low, if_neg negative]
          rw [if_neg fun both => fits both.2]
      · simp only [if_neg whole]
        rw [if_neg fun both => whole both.1]
  | false =>
      have shape : number.text = number.whole.digits ++
          (fractionText number.fraction ++ exponentText number.exponent) := by
        simp [Number.text, sign]
      have start : number.text.head? ≠ some 45 := by
        rw [shape]
        cases digits : number.whole.digits with
        | nil => exact absurd digits number.whole.nonempty
        | cons first later =>
            have solid := digit_solid first (number.whole.all first (by rw [digits]; simp))
            simp [solid]
      rw [if_neg start, shape, read _ (by decide)]
      by_cases whole : number.fraction.isNone ∧ number.exponent.isNone
      · by_cases fits : decimal number.whole.digits ≤ 2 ^ 64 - 1
        · simp only [if_pos whole, if_pos (And.intro whole fits), Bool.false_eq_true, if_false,
            Int.toNat_natCast]
          split
          · rename_i small
            rw [if_pos (by omega)]
          · rename_i large
            rw [if_neg (by omega), if_pos (by omega)]
        · simp only [if_pos whole, Bool.false_eq_true, if_false]
          rw [if_neg fun both => fits both.2, if_neg (by omega), if_neg (by omega)]
      · simp only [if_neg whole]
        rw [if_neg fun both => whole both.1]

theorem scan_number (c : Byte) (rest : List Byte) (start : isDigit c = true ∨ c = 45) :
    scanToken c rest = (.tokenNumber, readNumber rest) := by
  have plain : c ≠ 123 ∧ c ≠ 125 ∧ c ≠ 91 ∧ c ≠ 93 ∧ c ≠ 34 ∧ c ≠ 47 := by
    rcases start with digit | rfl
    · have solid := digit_solid c digit
      simp [solid]
    · decide
  simp [scanToken, plain, start]

theorem number_read (number : Number) (gap rest : List Byte) (blank : Blank gap)
    (delimited : Delimited rest) :
    skipCommentTokens (gap ++ (number.text ++ rest)) = (⟨.tokenNumber, number.text⟩, rest) := by
  have behind (digits : List Byte) (all : ∀ digit ∈ digits, isDigit digit = true) (c : Byte)
      (start : isDigit c = true ∨ c = 45) (solid : isBlank c = false)
      (shape : number.text = c :: (digits ++
        (fractionText number.fraction ++ exponentText number.exponent))) :
      skipCommentTokens (gap ++ (number.text ++ rest)) = (⟨.tokenNumber, number.text⟩, rest) := by
    rw [shape]
    refine (token_read gap _ rest c .tokenNumber blank solid ?_ (by decide)).2
    rw [scan_number c _ start, List.append_assoc, List.append_assoc,
      number_scanned digits rest _ _ all delimited]
  cases sign : number.minus with
  | true =>
      exact behind number.whole.digits number.whole.all 45 (.inr rfl) rfl
        (by simp [Number.text, sign])
  | false =>
      cases digits : number.whole.digits with
      | nil => exact absurd digits number.whole.nonempty
      | cons first later =>
          have all := number.whole.all
          rw [digits] at all
          have digit := all first (List.mem_cons_self ..)
          exact behind later (fun other member => all other (List.mem_cons_of_mem _ member)) first
            (.inl digit) (digit_solid first digit).1 (by simp [Number.text, sign, digits])

theorem number_head (number : Number) : ∃ c rest, number.text = c :: rest ∧
    (isDigit c = true ∨ c = 45) := by
  cases sign : number.minus with
  | true => exact ⟨45, _, by simp [Number.text, sign]; rfl, .inr rfl⟩
  | false =>
      cases digits : number.whole.digits with
      | nil => exact absurd digits number.whole.nonempty
      | cons first later =>
          have digit := number.whole.all first (by rw [digits]; simp)
          exact ⟨first, _, by simp [Number.text, sign, digits]; rfl, .inl digit⟩

/-! Values. -/

theorem word_read (gap word rest : List Byte) (c : Byte) (type : TokenType) (blank : Blank gap)
    (solid : isBlank c = false)
    (scanned : scanToken c (word ++ rest) = okToken type (matchWord word (word ++ rest)))
    (other : type ≠ .tokenComment) :
    skipCommentTokens (gap ++ (c :: word ++ rest)) = (⟨type, c :: word⟩, rest) := by
  refine (token_read gap word rest c type blank solid ?_ other).2
  rw [scanned, matchWord, if_pos (List.isPrefixOf_iff_prefix.mpr (List.prefix_append _ _)),
    List.drop_left]
  rfl

section Reads

variable {double : List Byte → Option (List Byte)}

theorem element_head {calls : Nat} {bytes : List Byte} {value : Value}
    (element : Element double calls bytes value) :
    ∃ c rest, bytes = c :: rest ∧ isBlank c = false ∧ c ≠ 93 := by
  cases element with
  | null => exact ⟨110, text "ull", by decide, by decide, by decide⟩
  | yes => exact ⟨116, text "rue", by decide, by decide, by decide⟩
  | no => exact ⟨102, text "alse", by decide, by decide, by decide⟩
  | number number reads =>
      obtain ⟨c, rest, shape, start⟩ := number_head number
      rcases start with digit | rfl
      · have solid := digit_solid c digit
        exact ⟨c, rest, shape, solid.1, solid.2.2.1⟩
      · exact ⟨45, rest, shape, rfl, by decide⟩
  | string holds => exact ⟨34, _, rfl, rfl, by decide⟩
  | emptyArray blank => exact ⟨91, _, rfl, rfl, by decide⟩
  | array elements => exact ⟨91, _, rfl, rfl, by decide⟩
  | emptyObject blank => exact ⟨123, _, rfl, rfl, by decide⟩
  | object entries => exact ⟨123, _, rfl, rfl, by decide⟩

theorem elements_head {calls : Nat} {bytes : List Byte} {values : List Value}
    (elements : Elements double calls bytes values) (rest : List Byte) :
    (skipSpaces (bytes ++ rest)).head? ≠ some 93 := by
  have padded_head {calls : Nat} {bytes : List Byte} {value : Value}
      (padded : Padded double calls bytes value) (rest : List Byte) :
      (skipSpaces (bytes ++ rest)).head? ≠ some 93 := by
    cases padded with
    | @between _ before inner after _ left element right =>
        obtain ⟨c, later, rfl, solid, other⟩ := element_head element
        have skipped : skipSpaces (before ++ (c :: later ++ after) ++ rest) =
            c :: later ++ after ++ rest := by
          rw [List.append_assoc]
          exact (takeWhile_run isBlank before _ left (stops_cons isBlank c _ solid)).2
        rw [skipped]
        exact fun close => other (Option.some.inj close)
  cases elements with
  | last padded => exact padded_head padded rest
  | more padded later =>
      rw [List.append_assoc]
      exact padded_head padded _

theorem element_calls {calls : Nat} {bytes : List Byte} {value : Value}
    (element : Element double calls bytes value) : 1 ≤ calls := by
  cases element <;> omega

def outcome (calls : Nat) (value : Value) (rest : List Byte) : Read :=
  if calls ≤ stackLimit_g then .ok (some value, rest) else .error .exception

theorem outcome_max (depth calls deep : Nat) (value : Value) (rest : List Byte) :
    (if depth + calls ≤ stackLimit_g then outcome (depth + deep) value rest
      else .error .exception) = outcome (depth + max calls deep) value rest := by
  unfold outcome
  split_ifs <;> first | rfl | omega

variable (double) in
def ValueReads (fuel : Nat) : Prop :=
  ∀ {calls : Nat} {bytes : List Byte} {value : Value} (depth : Nat) (gap rest : List Byte),
    Element double calls bytes value → Blank gap → Delimited rest →
      2 * (gap ++ (bytes ++ rest)).length + 1 ≤ fuel →
        readValue double fuel depth (gap ++ (bytes ++ rest)) = outcome (depth + calls) value rest

variable (double) in
def ArrayReads (fuel : Nat) : Prop :=
  ∀ {calls : Nat} {bytes : List Byte} {values : List Value} (depth : Nat) (before : List Value)
    (rest : List Byte), Elements double calls bytes values →
      2 * (bytes ++ 93 :: rest).length + 2 ≤ fuel →
        readArray double fuel depth before (bytes ++ 93 :: rest) =
          outcome (depth + calls) (.array (before ++ values)) rest

variable (double) in
def ObjectReads (fuel : Nat) : Prop :=
  ∀ {calls : Nat} {bytes : List Byte} {members : List (List Byte × Value)} (depth : Nat)
    (before : List (List Byte × Value)) (name rest : List Byte),
      Members double calls bytes members → 2 * (bytes ++ 125 :: rest).length + 2 ≤ fuel →
        readObject double fuel depth before name (bytes ++ 125 :: rest) =
          outcome (depth + calls) (.object (gathered before members)) rest

theorem value_reads (fuel : Nat) (array : ArrayReads double fuel)
    (object : ObjectReads double fuel) : ValueReads double (fuel + 1) := by
  intro calls bytes value depth gap rest element blank delimited enough
  have least := element_calls element
  rw [readValue]
  by_cases full : stackLimit_g ≤ depth
  · rw [if_pos full, outcome, if_neg (by omega)]
  -- A value without elements takes the one call that is open.
  · have scalar : outcome (depth + 1) value rest = .ok (some value, rest) := if_pos (by omega)
    rw [if_neg full]
    cases element with
    | null =>
        have token := word_read gap (text "ull") rest 110 .tokenNull blank rfl rfl (by decide)
        rw [scalar, show text "null" = 110 :: text "ull" from by decide, token]
    | yes =>
        have token := word_read gap (text "rue") rest 116 .tokenTrue blank rfl rfl (by decide)
        rw [scalar, show text "true" = 116 :: text "rue" from by decide, token]
    | no =>
        have token := word_read gap (text "alse") rest 102 .tokenFalse blank rfl rfl (by decide)
        rw [scalar, show text "false" = 102 :: text "alse" from by decide, token]
    | number number reads =>
        rw [scalar, number_read number gap rest blank delimited]
        dsimp only
        rw [number_decoded, reads]
    | @string content chars holds =>
        have shape : 34 :: (content ++ [34]) ++ rest = 34 :: (content ++ 34 :: rest) := by simp
        rw [scalar, shape, string_read gap content rest chars blank holds]
        dsimp only
        rw [string_decoded content chars holds]
        rfl
    | @emptyArray inner hollow =>
        have shape : 91 :: (inner ++ [93]) ++ rest = 91 :: (inner ++ 93 :: rest) := by simp
        have skipped : skipSpaces (inner ++ 93 :: rest) = 93 :: rest :=
          (takeWhile_run isBlank inner _ hollow (stops_cons isBlank 93 rest rfl)).2
        have token := (mark_read gap (inner ++ 93 :: rest) 91 .tokenArrayBegin blank rfl rfl
          (by decide)).2
        have close := (mark_read inner rest 93 .tokenArrayEnd hollow rfl rfl (by decide)).1
        rw [scalar, shape, token]
        dsimp only
        rw [skipped, if_pos List.head?_cons, close]
    | @array deep inner values elements =>
        have shape : 91 :: (inner ++ [93]) ++ rest = 91 :: (inner ++ 93 :: rest) := by simp
        have token := (mark_read gap (inner ++ 93 :: rest) 91 .tokenArrayBegin blank rfl rfl
          (by decide)).2
        rw [shape] at enough ⊢
        rw [List.length_append, List.length_cons] at enough
        rw [token]
        dsimp only
        rw [if_neg (elements_head elements _), array (depth + 1) [] rest elements (by omega)]
        rw [List.nil_append, Nat.add_right_comm, Nat.add_assoc]
    | @emptyObject inner hollow =>
        have shape : 123 :: (inner ++ [125]) ++ rest = 123 :: (inner ++ 125 :: rest) := by simp
        have token := (mark_read gap (inner ++ 125 :: rest) 123 .tokenObjectBegin blank rfl rfl
          (by decide)).2
        have close := (mark_read inner rest 125 .tokenObjectEnd hollow rfl rfl (by decide)).2
        rw [shape] at enough ⊢
        rw [List.length_append, List.length_cons] at enough
        obtain ⟨later, rfl⟩ : ∃ later, fuel = later + 1 := ⟨fuel - 1, by omega⟩
        rw [scalar, token]
        dsimp only
        rw [readObject, close]
        exact if_pos ⟨rfl, rfl⟩
    | @object deep inner members entries =>
        have shape : 123 :: (inner ++ [125]) ++ rest = 123 :: (inner ++ 125 :: rest) := by simp
        have token := (mark_read gap (inner ++ 125 :: rest) 123 .tokenObjectBegin blank rfl rfl
          (by decide)).2
        rw [shape] at enough ⊢
        rw [List.length_append, List.length_cons] at enough
        rw [token]
        dsimp only
        rw [object (depth + 1) [] [] rest entries (by omega)]
        rw [Nat.add_right_comm, Nat.add_assoc]

theorem padded_reads (fuel : Nat) (value : ValueReads double fuel) {calls : Nat}
    {bytes : List Byte} {inner : Value} (padded : Padded double calls bytes inner) (depth : Nat)
    (c : Byte) (rest : List Byte) (mark : c = 44 ∨ c = 93 ∨ c = 125)
    (enough : 2 * (bytes ++ c :: rest).length + 1 ≤ fuel) :
    ∃ after, Blank after ∧ readValue double fuel depth (bytes ++ c :: rest) =
      outcome (depth + calls) inner (after ++ c :: rest) := by
  cases padded with
  | @between _ before element after _ left holds right =>
      refine ⟨after, right, ?_⟩
      rw [List.append_assoc, List.append_assoc] at enough ⊢
      exact value depth before _ holds left
        (delimited_gap after _ right (delimited_cons c rest mark)) enough

theorem array_reads (fuel : Nat) (value : ValueReads double fuel)
    (array : ArrayReads double fuel) : ArrayReads double (fuel + 1) := by
  intro calls bytes values depth before rest elements enough
  rw [readArray]
  cases elements with
  | @last _ _ inner padded =>
      obtain ⟨after, right, read⟩ := padded_reads fuel value padded depth 93 rest (by simp)
        (by omega)
      have close := (mark_read after rest 93 .tokenArrayEnd right rfl rfl (by decide)).2
      rw [read]
      unfold outcome
      split
      · simp only [bind, Except.bind, close]
        rfl
      · rfl
  | @more _ deep bytes more inner values padded later =>
      rw [List.append_assoc, List.cons_append] at enough ⊢
      obtain ⟨after, right, read⟩ := padded_reads fuel value padded depth 44 (more ++ 93 :: rest)
        (by simp) (by omega)
      have comma := (mark_read after (more ++ 93 :: rest) 44 .tokenArraySeparator right rfl rfl
        (by decide)).2
      rw [read, ← outcome_max]
      nth_rewrite 1 [outcome]
      rw [List.length_append, List.length_cons] at enough
      split
      · simp only [bind, Except.bind, comma]
        rw [if_neg (by decide), if_true, array depth _ rest later (by omega)]
        rw [List.append_assoc, List.singleton_append]
      · rfl

theorem member_reads (fuel : Nat) (value : ValueReads double fuel) {calls : Nat}
    {bytes : List Byte} {member : List Byte × Value} (entry : Member double calls bytes member)
    (depth : Nat) (before : List (List Byte × Value)) (name rest : List Byte) (c : Byte)
    (mark : c = 44 ∨ c = 125) (enough : 2 * (bytes ++ c :: rest).length + 2 ≤ fuel + 1) :
    readObject double (fuel + 1) depth before name (bytes ++ c :: rest) =
      if depth + calls ≤ stackLimit_g then
        if c = 125 then .ok (some (.object (assign member.1 member.2 before)), rest)
        else readObject double fuel depth (assign member.1 member.2 before) member.1 rest
      else .error .exception := by
  cases entry with
  | @named _ front content gap bytes chars inner left holds middle padded =>
      have shape : front ++ 34 :: (content ++ 34 :: (gap ++ 58 :: bytes)) ++ c :: rest =
          front ++ 34 :: (content ++ 34 :: (gap ++ 58 :: (bytes ++ c :: rest))) := by simp
      rw [shape] at enough ⊢
      have token := string_read front content (gap ++ 58 :: (bytes ++ c :: rest)) chars left holds
      have colon := (mark_read gap (bytes ++ c :: rest) 58 .tokenMemberSeparator middle rfl rfl
        (by decide)).1
      simp only [List.length_append, List.length_cons] at enough
      obtain ⟨after, right, read⟩ := padded_reads fuel value padded depth c rest
        (mark.imp id .inr) (by simp only [List.length_append, List.length_cons]; omega)
      rw [readObject, token]
      dsimp only
      rw [if_neg (by simp), if_neg (by simp), string_decoded content chars holds]
      dsimp only
      rw [colon]
      dsimp only
      rw [if_neg (by simp), read, outcome]
      split
      · rcases mark with rfl | rfl
        · have comma := mark_read after rest 44 .tokenArraySeparator right rfl rfl (by decide)
          simp only [bind, Except.bind, comma.1, comma.2]
          rw [if_neg (by decide), if_neg (by decide), if_neg (by decide)]
        · have close := mark_read after rest 125 .tokenObjectEnd right rfl rfl (by decide)
          simp only [bind, Except.bind, close.1, close.2]
          rw [if_neg (by decide), if_true]
      · rfl

theorem object_reads (fuel : Nat) (value : ValueReads double fuel)
    (object : ObjectReads double fuel) : ObjectReads double (fuel + 1) := by
  intro calls bytes members depth before name rest entries enough
  cases entries with
  | last entry =>
      rw [member_reads fuel value entry depth before name rest 125 (.inr rfl) enough]
      rfl
  | @more _ deep bytes more member members entry later =>
      rw [List.append_assoc, List.cons_append] at enough ⊢
      rw [member_reads fuel value entry depth before name _ 44 (.inl rfl) enough, ← outcome_max]
      rw [List.length_append, List.length_cons] at enough
      have comma : ¬ (44 : Byte) = 125 := by decide
      rw [if_neg comma, object depth _ _ rest later (by omega)]
      rfl

theorem reader_reads (fuel : Nat) :
    ValueReads double fuel ∧ ArrayReads double fuel ∧ ObjectReads double fuel := by
  induction fuel with
  | zero =>
      refine ⟨?_, ?_, ?_⟩
      · intro _ _ _ _ _ _ _ _ _ enough
        omega
      · intro _ _ _ _ _ _ _ enough
        omega
      · intro _ _ _ _ _ _ _ _ enough
        omega
  | succ fuel ih =>
      obtain ⟨value, array, object⟩ := ih
      exact ⟨value_reads fuel array object, array_reads fuel value array,
        object_reads fuel value object⟩

theorem padded_parsed {calls : Nat} {document : List Byte} {value : Value}
    (padded : Padded double calls document value) :
    ∃ rest, parse double document = (outcome calls value rest).map Prod.fst := by
  cases padded with
  | @between _ before bytes after _ left element right =>
      have delimited : Delimited after := by
        have ended := delimited_gap after [] right (fun _ same => by cases same)
        rwa [List.append_nil] at ended
      refine ⟨after, ?_⟩
      unfold parse
      rw [(reader_reads _).1 0 before after element left delimited le_rfl, Nat.zero_add]

end Reads

end AsrServer.JsonDocument
