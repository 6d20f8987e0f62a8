import AsrServer.HttpHeader
import AsrServer.Reply

/-!
A reply of the server is read back by the client's parser. The header is four lines and an
empty one, and none of what the parser looks for reaches over the end of a line; so it finds
the `CRLFCRLF`, no `Transfer-Encoding`, and the length in the server's own field, whatever
the body holds.
-/

namespace AsrServer.ReadableReply

open Bytes RequestHeader Numbers ChunkedContent HttpResponse ResponseFragments HttpHeader Reply

def encodingField : List Byte := text "Transfer-Encoding:"

/-- What `strftime` writes to `timestr`, without the NUL. -/
structure Timestamp where
  bytes : List Byte
  short : bytes.length < 64
  noReturn : 13 ∉ bytes
  noNewline : 10 ∉ bytes
  unsized : ¬ lengthMark <:+: bytes
  unmarked : ¬ encodingField <:+: bytes

variable (timestr : Timestamp)

def message (body : List Byte) : List Byte :=
  generate_http_header timestr.bytes body.length ++ body

structure Readable (body : List Byte) : Prop where
  waits : ∀ front, front <+: message timestr body →
    front.length < (generate_http_header timestr.bytes body.length).length →
    ParseHttpHeader front = (1, front, -1)
  header : ParseHttpHeader (message timestr body) = (0, body, (body.length : Int))
  complete : ParseHttpContentLength body body.length = 0
  part : ∀ front, front <+: body → front ≠ body →
    ParseHttpContentLength front body.length = 1

/-! The number. -/

theorem text_append (left right : String) : text (left ++ right) = text left ++ text right := by
  simp [text]

theorem text_toString (len : Nat) :
    text (toString len) = (Nat.toDigits 10 len).map fun char => UInt8.ofNat char.toNat := by
  rw [text, Nat.toString_eq_repr, Nat.toList_repr]

theorem digit_byte (char : Char) (digit : char.isDigit = true) :
    (UInt8.ofNat char.toNat).toNat = char.toNat ∧ isDigit (UInt8.ofNat char.toNat) = true := by
  have bounds : 48 ≤ char.toNat ∧ char.toNat ≤ 57 := by
    simpa [Char.isDigit, UInt32.le_iff_toNat_le] using digit
  have byte : (UInt8.ofNat char.toNat).toNat = char.toNat := by
    rw [UInt8.toNat_ofNat']
    exact Nat.mod_eq_of_lt (by omega)
  refine ⟨byte, ?_⟩
  simp only [isDigit, Bool.and_eq_true, decide_eq_true_eq, UInt8.le_iff_toNat_le, byte]
  exact bounds

theorem length_digits (len : Nat) : ∀ char ∈ text (toString len), isDigit char = true := by
  intro char member
  rw [text_toString, List.mem_map] at member
  obtain ⟨digit, inside, rfl⟩ := member
  exact (digit_byte digit (Nat.isDigit_of_mem_toDigits (by decide) (by decide) inside)).2

theorem decimal_length (len : Nat) : decimal (text (toString len)) = len := by
  rw [text_toString, decimal, List.foldl_map]
  refine Eq.trans ?_ (Nat.ofDigitChars_ten_toDigits (n := len))
  rw [Nat.ofDigitChars_eq_foldl]
  apply List.foldl_ext
  intro value char inside
  have digit := Nat.isDigit_of_mem_toDigits (by decide) (by decide) inside
  rw [(digit_byte char digit).1, Nat.mul_comm]
  rfl

theorem length_short (len : Nat) (short : len < 2 ^ 31) : (text (toString len)).length ≤ 10 := by
  rw [text_toString, List.length_map, Nat.length_toDigits_le_iff (by decide) (by decide)]
  omega

theorem length_some (len : Nat) : text (toString len) ≠ [] := by
  rw [text_toString, ne_eq, List.map_eq_nil_iff]
  exact Nat.toDigits_ne_nil

theorem atoi_length (len : Nat) (short : len < 2 ^ 31) (more : List Byte) :
    atoi (text (toString len) ++ 13 :: more) = len := by
  have all := length_digits len
  let numeral : Numeral := ⟨[], [], text (toString len), List.forall_mem_nil _, Or.inl rfl, all,
    length_some len⟩
  have value := (reads_numeral numeral (13 :: cstr more) (stops_cons _ _ _ (by decide))).2
  have read : numeral.value = (decimal (text (toString len)) : Int) := rfl
  rw [read, decimal_length] at value
  rw [atoi_append _ _ (digits_clean _ all)]
  change storeInt (number (numeral.bytes ++ 13 :: cstr more)) = len
  rw [value, storeInt_small len short]

/-! The header. -/

section Header
variable (len : Nat)

def statusLine : List Byte := text "HTTP/1.1 200 OK"

def dateLine : Line where
  bytes := text "Date:" ++ timestr.bytes
  nonempty := by simp [text]
  single := by
    apply single_of_absent
    intro member
    rcases List.mem_append.mp member with name | time
    · exact absurd name (by decide)
    · exact timestr.noReturn time

def lengthLine : Line where
  bytes := lengthMark ++ text (toString len)
  nonempty := by simp [lengthMark, text]
  single := by
    apply single_of_absent
    intro member
    rcases List.mem_append.mp member with name | digits
    · exact absurd name (by decide)
    · exact absurd (length_digits len 13 digits) (by decide)

def typeLine : Line where
  bytes := text "Content-Type: text/xml; charset=utf-8"
  nonempty := by simp [text]
  single := by
    apply single_of_absent
    decide

theorem header_lines : generate_http_header timestr.bytes len =
    statusLine ++ crlf ++ lines [dateLine timestr, lengthLine len, typeLine] ++ crlf := by
  have status : text "HTTP/1.1 200 OK\r\n" = statusLine ++ crlf := by decide
  have type : text "Content-Type: text/xml; charset=utf-8\r\n" = typeLine.bytes ++ crlf := by decide
  have size : text ("Content-Length:" ++ toString len ++ "\r\n") =
      (lengthLine len).bytes ++ crlf := by
    rw [text_append, text_append]
    rfl
  have date : text "Date:" ++ timestr.bytes ++ text "\r\n" = (dateLine timestr).bytes ++ crlf := rfl
  rw [generate_http_header, status, date, size, type]
  simp [lines, crlf]

def ahead : List Byte := statusLine ++ crlf ++ ((dateLine timestr).bytes ++ crlf)

def behind : List Byte := crlf ++ (typeLine.bytes ++ crlf) ++ crlf

theorem header_parts : generate_http_header timestr.bytes len =
    ahead timestr ++ lengthMark ++ (text (toString len) ++ behind) := by
  rw [header_lines]
  simp [ahead, behind, lines, lengthLine]

/-! What the parser looks for. -/

theorem absent_lines (line more pattern : List Byte) (noReturn : 13 ∉ pattern)
    (noNewline : 10 ∉ pattern) (absent : ¬ pattern <:+: line) (later : ¬ pattern <:+: more) :
    ¬ pattern <:+: line ++ (crlf ++ more) := by
  have ends : crlf = [13, 10] := by decide
  intro inside
  rw [ends, List.cons_append] at inside
  rcases Occurrence.infix_apart line ([10] ++ more) pattern 13 noReturn inside with here | rest
  · exact absent here
  · rcases Occurrence.infix_apart [] more pattern 10 noNewline rest with empty | there
    · rw [List.infix_nil] at empty
      rw [empty] at absent
      exact absent (List.nil_infix)
    · exact later there

theorem absent_field (name value pattern : List Byte) (colon : 58 ∉ pattern.dropLast)
    (first : ¬ pattern <:+: name ++ [58]) (second : ¬ pattern <:+: value) :
    ¬ pattern <:+: name ++ [58] ++ value := by
  intro inside
  exact (Occurrence.infix_separator name value pattern 58 colon inside).elim first second

theorem date_absent (pattern : List Byte) (colon : 58 ∉ pattern.dropLast)
    (name : ¬ pattern <:+: text "Date:") (time : ¬ pattern <:+: timestr.bytes) :
    ¬ pattern <:+: (dateLine timestr).bytes :=
  absent_field (text "Date") timestr.bytes pattern colon name time

theorem ahead_unsized : ¬ lengthMark <:+: ahead timestr := by
  have date := date_absent timestr lengthMark (by decide) (by decide) timestr.unsized
  have dated := absent_lines _ [] lengthMark (by decide) (by decide) date (by decide)
  have all := absent_lines statusLine _ lengthMark (by decide) (by decide) (by decide) dated
  simpa [ahead] using all

theorem header_unmarked : ¬ chunkedMark <:+: generate_http_header timestr.bytes len := by
  have date := date_absent timestr encodingField (by decide) (by decide) timestr.unmarked
  have length : ¬ encodingField <:+: (lengthLine len).bytes := by
    apply absent_field (text "Content-Length") _ _ (by decide) (by decide)
    intro inside
    exact absurd (length_digits len 84 (inside.subset (by decide))) (by decide)
  have typed := absent_lines typeLine.bytes crlf encodingField (by decide) (by decide)
    (by decide) (by decide)
  have sized := absent_lines _ _ encodingField (by decide) (by decide) length typed
  have dated := absent_lines _ _ encodingField (by decide) (by decide) date sized
  have all := absent_lines statusLine _ encodingField (by decide) (by decide) (by decide) dated
  have field : encodingField <:+: chunkedMark := by decide
  intro marked
  have inside := field.trans marked
  rw [header_lines] at inside
  apply all
  simpa [lines] using inside

theorem header_field : (generate_http_header timestr.bytes len).dropInfix? lengthMark =
    some (ahead timestr, text (toString len) ++ behind) := by
  obtain ⟨front, shape⟩ : ∃ front, ahead timestr = front ++ [10] :=
    ⟨statusLine ++ crlf ++ ((dateLine timestr).bytes ++ [13]), by
      have ends : crlf = [13, 10] := by decide
      simp [ahead, ends]⟩
  have absent : front.dropInfix? lengthMark = none := by
    rw [Occurrence.split_none_iff]
    intro left right same
    apply ahead_unsized timestr
    rw [shape, same]
    exact ⟨left, right ++ [10], by simp⟩
  have here : (lengthMark ++ (text (toString len) ++ behind)).dropInfix? lengthMark =
      some ([], text (toString len) ++ behind) := by
    rw [Occurrence.split_iff]
    exact ⟨rfl, fun _ _ _ => Nat.zero_le _⟩
  have split := Occurrence.split_separator front
    (lengthMark ++ (text (toString len) ++ behind)) lengthMark 10 (by decide)
  rw [absent, here, Option.map_some] at split
  rw [header_parts, shape, List.append_assoc, List.append_assoc]
  exact split

/-- The header is short enough, and ends at its first `CRLFCRLF`. -/
theorem header_ends (short : len < 2 ^ 31) :
    ∃ before, (generate_http_header timestr.bytes len).dropInfix? crlfcrlf = some (before, []) ∧
      before.length + 4 ≤ 10240 := by
  obtain ⟨before, found⟩ := trailer_ends statusLine [dateLine timestr, lengthLine len, typeLine]
    (by apply single_of_absent; decide)
  rw [← header_lines] at found
  refine ⟨before, found, ?_⟩
  have lengths := congrArg List.length (Occurrence.split_text _ _ _ _ found)
  have digits := length_short len short
  have time := timestr.short
  have status : statusLine.length = 15 := by decide
  have mark : lengthMark.length = 15 := by decide
  have name : (text "Date:").length = 5 := by decide
  have type : behind.length = 43 := by decide
  rw [header_parts] at lengths
  simp only [ahead, dateLine, List.length_append, status, mark, name, type, crlf_length,
    crlfcrlf_length, List.length_nil] at lengths
  omega

end Header

theorem content_length_complete (body : List Byte) :
    ParseHttpContentLength body body.length = 0 := by
  simp [ParseHttpContentLength]

theorem content_length_partial (body front : List Byte) (starts : front <+: body)
    (more : front ≠ body) : ParseHttpContentLength front body.length = 1 := by
  have within := starts.length_le
  have less : front.length ≠ body.length := mt starts.eq_of_length more
  have missing : front.length < body.length := by omega
  simp [ParseHttpContentLength, missing]

/-- The client's parser reads every reply of the server, and waits for all of its header. -/
theorem reply_readable (body : List Byte) (short : body.length < 2 ^ 31) :
    Readable timestr body := by
  obtain ⟨before, ends, small⟩ := header_ends timestr body.length short
  have header := Occurrence.split_text _ _ _ _ ends
  rw [List.append_nil] at header
  constructor
  · intro front starts less
    have inside : front <+: generate_http_header timestr.bytes body.length :=
      List.prefix_of_prefix_length_le starts (List.prefix_append _ _) (by omega)
    obtain ⟨rest, whole⟩ := inside
    rw [← whole, List.length_append] at less
    rw [← whole] at ends
    -- The header ends with its only CRLFCRLF, so a proper front of it has none.
    have missing : find front crlfcrlf = none := by
      rcases find_front front rest crlfcrlf before [] ends with ⟨missing, _⟩ | ⟨_, _, nothing⟩
      · exact missing
      · have empty := (List.append_eq_nil_iff.mp nothing.symm).2
        rw [empty, List.length_nil] at less
        omega
    have lengths := congrArg List.length header
    rw [← whole, List.length_append, List.length_append, crlfcrlf_length] at lengths
    simp only [ParseHttpHeader, missing]
    rw [if_neg (by omega)]
  · have found := Occurrence.split_append _ _ _ _ body ends
    -- Behind the digits comes a line end, whatever the body is.
    have return_first : behind = 13 :: behind.tail := by decide
    have value : atoi (text (toString body.length) ++ behind ++ body) = body.length := by
      rw [List.append_assoc, return_first, List.cons_append]
      exact atoi_length body.length short _
    rw [message, parse_head _ before body found, if_neg (by omega), ← header,
      if_neg (header_unmarked timestr body.length), header_field]
    simp only [value]
    rw [if_neg (by omega)]
  · exact content_length_complete body
  · exact content_length_partial body

def epoch : Timestamp where
  bytes := text "Thu,  1 Jan 1970 00:00:00 GMT"
  short := by decide
  noReturn := by decide
  noNewline := by decide
  unsized := by decide
  unmarked := by decide

/-- A body that looks like a header itself. -/
theorem reply_readable_header :
    (text "Content-Length:7\r\n\r\n").length = 20 ∧
      Readable epoch (text "Content-Length:7\r\n\r\n") :=
  ⟨by decide, reply_readable epoch _ (by decide)⟩

end AsrServer.ReadableReply
