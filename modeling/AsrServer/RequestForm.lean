import Mathlib.Order.WellFounded
import AsrServer.ResponseFragments

/-!
What `GetInfo` recognises, against the form of a request header. It looks for `POST` and for
`Content-Length:` anywhere, and it scans with `sscanf`, which takes white space and signs
where the form has none, stores any number in the `int`, and does not look what follows.
-/

namespace AsrServer.RequestForm

open Bytes RequestHeader Numbers
open ResponseFragments (lengthMark)
open ChunkedContent (crlf)

/-! The form of a request header. -/

def RequestLine (header : List Byte) : Prop :=
  ∃ path major minor rest,
    header = text "POST /" ++ path ++ text " HTTP/" ++ major ++ text "." ++ minor ++ rest ∧
    path.map toLower = text "request" ∧
    (major ≠ [] ∧ ∀ char ∈ major, isDigit char = true) ∧
    (minor ≠ [] ∧ ∀ char ∈ minor, isDigit char = true) ∧
    (rest = [] ∨ crlf <+: rest)

/-- Blanks, digits and no sign; the value fits in `int`. -/
structure Proper (numeral : Numeral) : Prop where
  blanks : ∀ char ∈ numeral.gap, char = 32 ∨ char = 9
  unsigned : numeral.sign = []
  fits : decimal numeral.digits < 2 ^ 31

/-- `ahead` ends a line, and the next one starts with a length. -/
def LengthLine (header ahead : List Byte) (length : Int) : Prop :=
  ∃ (numeral : Numeral) (rest : List Byte),
    header = ahead ++ lengthMark ++ numeral.bytes ++ rest ∧ crlf <:+ ahead ∧
    Proper numeral ∧ Stops isDigit rest ∧ length = numeral.value

/-- The length in the first line that starts with one. -/
def FirstLength (header : List Byte) (length : Int) : Prop :=
  ∃ ahead, LengthLine header ahead length ∧
    ∀ other value, LengthLine header other value → ahead.length ≤ other.length

def Recognised (before : Byte) (header : List Byte) : Prop :=
  ∀ length, GetInfo before header = some length ↔ RequestLine header ∧ FirstLength header length

/-! The scans. -/

theorem literal_iff (characters : String) (input rest : List Byte) :
    literal characters input = some rest ↔ input = text characters ++ rest := by
  rw [literal, List.isPrefixOf?_eq_some_iff_append_eq]
  exact eq_comm

theorem scanWord_iff (width : Nat) (input word rest : List Byte) (short : word.length < width) :
    scanWord width input = some (word, rest) ↔ ∃ lead, input = lead ++ word ++ rest ∧
      (∀ char ∈ lead, isSpace char = true) ∧ word ≠ [] ∧
      (∀ char ∈ word, isSpace char = false) ∧ Stops (fun char => !isSpace char) rest := by
  constructor
  · intro scanned
    rw [scanWord] at scanned
    split at scanned
    · cases scanned
    · rename_i written
      rw [Option.some.injEq, Prod.mk.injEq] at scanned
      obtain ⟨taken, rfl⟩ := scanned
      -- Less than the width has been taken, so that white space or the end stopped it.
      have run : (skipSpace input).takeWhile (fun char => !isSpace char) = word := by
        rw [← taken, List.length_take] at short
        rw [← taken, List.take_of_length_le (by omega)]
      rw [taken] at written ⊢
      have behind : (skipSpace input).drop word.length =
          (skipSpace input).dropWhile (fun char => !isSpace char) := by
        conv_lhs => rw [← List.takeWhile_append_dropWhile (p := fun char => !isSpace char)
          (l := skipSpace input), run]
        exact List.drop_left
      refine ⟨input.takeWhile isSpace, ?_, fun char member => List.mem_takeWhile_imp member,
        written, ?_, ?_⟩
      · conv_rhs => rw [behind, ← run, List.append_assoc, List.takeWhile_append_dropWhile]
        exact List.takeWhile_append_dropWhile.symm
      · intro char member
        rw [← run] at member
        simpa using List.mem_takeWhile_imp member
      · rw [behind]
        exact stops_dropWhile _ _
  · rintro ⟨lead, rfl, blank, written, solid, stops⟩
    have first : Stops isSpace (word ++ rest) := by
      intro char head
      rw [List.head?_append_of_ne_nil _ written] at head
      exact solid char (List.mem_of_mem_head? head)
    have start : skipSpace (lead ++ word ++ rest) = word ++ rest := by
      rw [List.append_assoc]
      exact skipSpace_gap _ _ blank first
    have run := (takeWhile_run (fun char => !isSpace char) word rest
      (fun char member => by simp [solid char member]) stops).1
    rw [scanWord, start, run, List.take_of_length_le (by omega)]
    simp [written]

/-! The request line. -/

def LooseLine (buf : List Byte) : Prop :=
  ∃ (slash lead path gap : List Byte) (major minor : Numeral) (rest : List Byte),
    buf = text "POST" ++ (slash ++ (text "/" ++ (lead ++ path ++ (gap ++ (text "HTTP/" ++
      (major.bytes ++ (text "." ++ (minor.bytes ++ rest)))))))) ∧
    (∀ char ∈ slash ++ lead ++ gap, isSpace char = true) ∧ gap ≠ [] ∧
    path.map toLower = text "request"

theorem path_char (char : Byte) (letter : toLower char ∈ text "request") :
    isSpace char = false ∧ char ≠ 0 := by
  revert char
  exact forall_byte (by decide +kernel)

theorem path_plain (path : List Byte) (named : path.map toLower = text "request") :
    path.length = 7 ∧ ∀ char ∈ path, isSpace char = false ∧ char ≠ 0 := by
  constructor
  · have lengths := congrArg List.length named
    rw [List.length_map] at lengths
    exact lengths
  · intro char member
    apply path_char
    rw [← named]
    exact List.mem_map_of_mem member

theorem scanned_loose (buf path : List Byte) (scanned : scanRequestLine buf = some path)
    (named : path.map toLower = text "request") : LooseLine buf := by
  -- The conversions of the format, one behind the other.
  simp only [scanRequestLine, Option.bind_eq_bind, Option.pure_def, Option.bind_eq_some_iff,
    Option.some.injEq] at scanned
  obtain ⟨slash, post, behind, root, ⟨word, gap⟩, scan, version, http, ⟨_, dot⟩, first, point,
    period, _, second, rfl⟩ := scanned
  dsimp only at http period named
  obtain ⟨short, solid⟩ := path_plain word named
  rw [literal_iff] at post root http period
  obtain ⟨lead, split, blank, _, _, stops⟩ := (scanWord_iff _ _ _ _ (by omega)).mp scan
  obtain ⟨major, shape, _⟩ := (scanNumber_iff _ _ _).mp first
  obtain ⟨minor, rest, tail⟩ := (scanNumber_isSome _).mp (by rw [second]; rfl)
  have before : slash = slash.takeWhile isSpace ++ (text "/" ++ behind) := by
    rw [← root]
    exact List.takeWhile_append_dropWhile.symm
  have between : gap = gap.takeWhile isSpace ++ (text "HTTP/" ++ version) := by
    rw [← http]
    exact List.takeWhile_append_dropWhile.symm
  refine ⟨slash.takeWhile isSpace, lead, word, gap.takeWhile isSpace, major, minor, rest,
    ?_, ?_, ?_, named⟩
  · rw [← tail, ← period, ← shape, ← between, ← split, ← before]
    exact post
  · intro char member
    rcases List.mem_append.mp member with member | member
    · rcases List.mem_append.mp member with member | member
      · exact List.mem_takeWhile_imp member
      · exact blank char member
    · exact List.mem_takeWhile_imp member
  · -- The word ended there, and not at the end of the text.
    cases gap with
    | nil => cases http
    | cons char later =>
        have space := stops char rfl
        rw [Bool.not_eq_false'] at space
        rw [List.takeWhile_cons_of_pos space]
        exact List.cons_ne_nil _ _

theorem loose_scanned (buf : List Byte) (loose : LooseLine buf) :
    ∃ path, scanRequestLine buf = some path ∧ path.map toLower = text "request" := by
  obtain ⟨slash, lead, path, gap, major, minor, rest, rfl, blank, gapped, named⟩ := loose
  obtain ⟨short, solid⟩ := path_plain path named
  have written : path ≠ [] := List.ne_nil_of_length_pos (by omega)
  let version := major.bytes ++ (text "." ++ (minor.bytes ++ rest))
  obtain ⟨⟨_, last⟩, second⟩ := Option.isSome_iff_exists.mp
    ((scanNumber_isSome (minor.bytes ++ rest)).mpr ⟨minor, rest, rfl⟩)
  have first := (scanNumber_iff version _ _).mpr
    ⟨major, rfl, rfl, stops_cons _ _ _ (by decide)⟩
  have http := skipSpace_gap gap (text "HTTP/" ++ version)
    (fun char member => blank char (by simp [member])) (stops_cons _ _ _ (by decide))
  have root := skipSpace_gap slash
    (text "/" ++ (lead ++ path ++ (gap ++ (text "HTTP/" ++ version))))
    (fun char member => blank char (by simp [member])) (stops_cons _ _ _ (by decide))
  -- The word ends where the white space begins that the form asks for.
  have stops : Stops (fun char => !isSpace char) (gap ++ (text "HTTP/" ++ version)) := by
    cases gap with
    | nil => exact absurd rfl gapped
    | cons char later => exact stops_cons _ _ _ (by simp [blank char (by simp)])
  have word := (scanWord_iff 2040 _ path _ (by omega)).mpr
    ⟨lead, rfl, fun char member => blank char (by simp [member]), written,
      fun char member => (solid char member).1, stops⟩
  refine ⟨path, ?_, named⟩
  simp only [scanRequestLine, Option.bind_eq_bind, Option.pure_def, Option.bind_eq_some_iff]
  exact ⟨_, (literal_iff _ _ _).mpr rfl, _, (literal_iff _ _ _).mpr root, _, word, _,
    (literal_iff _ _ _).mpr http, _, first, _, (literal_iff _ _ _).mpr rfl, _, second, rfl⟩

theorem scanRequestLine_iff (buf : List Byte) :
    (∃ uri, scanRequestLine buf = some uri ∧ strcasecmp uri (text "request") = true) ↔
      LooseLine buf := by
  have lower : (text "request").map toLower = text "request" := by decide
  simp only [strcasecmp, lower, beq_iff_eq]
  constructor
  · rintro ⟨path, scanned, named⟩
    exact scanned_loose buf path scanned named
  · exact loose_scanned buf

/-! The length. -/

def LooseLength (buf : List Byte) (length : Int) : Prop :=
  ∃ (numeral : Numeral) (rest : List Byte), buf = lengthMark ++ (numeral.bytes ++ rest) ∧
    Stops isDigit rest ∧ length = storeInt numeral.value

theorem scanContentLength_iff (buf : List Byte) (length : Int) :
    scanContentLength buf = some length ↔ LooseLength buf length := by
  simp only [scanContentLength, Option.bind_eq_bind, Option.pure_def, Option.bind_eq_some_iff,
    Option.some.injEq, literal_iff]
  constructor
  · rintro ⟨behind, rfl, ⟨value, rest⟩, scanned, rfl⟩
    obtain ⟨numeral, rfl, rfl, stops⟩ := (scanNumber_iff _ _ _).mp scanned
    exact ⟨numeral, rest, rfl, stops, rfl⟩
  · rintro ⟨numeral, rest, rfl, stops, rfl⟩
    exact ⟨_, rfl, _, (scanNumber_iff _ _ _).mpr ⟨numeral, rfl, rfl, stops⟩, rfl⟩

theorem GetInfo_iff (before : Byte) (header : List Byte) (length : Int) :
    GetInfo before header = some length ↔
      LooseLine (c_str before header (find header (text "POST"))) ∧
        LooseLength (c_str before header (find header lengthMark)) length := by
  have mark : text "Content-Length:" = lengthMark := rfl
  rw [← scanRequestLine_iff, ← scanContentLength_iff, GetInfo, mark]
  cases line : scanRequestLine (c_str before header (find header (text "POST"))) with
  | none => simp
  | some uri =>
      cases field : scanContentLength (c_str before header (find header lengthMark)) with
      | none => simp
      | some stored => simp

/-! The condition. -/

def Stored (after : List Byte) (length : Int) : Prop :=
  ∃ (numeral : Numeral) (rest : List Byte), cstr after = numeral.bytes ++ rest ∧
    Stops isDigit rest ∧ length = storeInt numeral.value

/-- The first `Content-Length:` is that of the first line that starts with a length, or what is
stored there is the same by chance, or there are neither a number nor such a line. -/
def LengthSound (header : List Byte) : Prop :=
  match header.dropInfix? lengthMark with
  | none => True
  | some (ahead, after) =>
      (crlf <:+ ahead ∧ ∃ (numeral : Numeral) (rest : List Byte),
        after = numeral.bytes ++ rest ∧ Proper numeral ∧ Stops isDigit rest) ∨
      (∃ length, Stored after length ∧ FirstLength header length) ∨
      ((∀ length, ¬ Stored after length) ∧ ∀ other length, ¬ LengthLine header other length)

/-- Under a request line the lengths agree; elsewhere what stands at the first `POST` or at
the first `Content-Length:` stops the scan. -/
structure Sound (before : Byte) (header : List Byte) : Prop where
  request : RequestLine header → LengthSound header
  other : ¬ RequestLine header →
    ¬ LooseLine (c_str before header (find header (text "POST"))) ∨
      ∀ length, ¬ LooseLength (c_str before header (find header lengthMark)) length

/-! Under a request line. -/

theorem request_loose (before : Byte) (header : List Byte) (line : RequestLine header) :
    LooseLine (c_str before header (find header (text "POST"))) := by
  obtain ⟨path, major, minor, rest, shape, named, ⟨someMajor, plainMajor⟩,
    ⟨someMinor, plainMinor⟩, _⟩ := line
  let front : List Byte :=
    text "POST /" ++ path ++ text " HTTP/" ++ major ++ text "." ++ minor
  have method : text "POST /" = text "POST" ++ text " /" := by decide
  have first : header.dropInfix? (text "POST") = some ([], header.drop 4) := by
    apply (Occurrence.split_iff _ _ _ _).mpr
    refine ⟨?_, fun _ _ _ => Nat.zero_le _⟩
    rw [shape, method]
    rfl
  -- The first POST is the one of the method, and the scan starts there.
  have start : find header (text "POST") = some 0 := by
    rw [find, first]
    rfl
  have clean : 0 ∉ front := by
    have path_clean : 0 ∉ path := fun zero => ((path_plain path named).2 0 zero).2 rfl
    have ends : 0 ∉ text "POST /" ∧ 0 ∉ text " HTTP/" ∧ 0 ∉ text "." := by decide
    simp only [front, List.mem_append, not_or]
    exact ⟨⟨⟨⟨⟨ends.1, path_clean⟩, ends.2.1⟩, digits_clean major plainMajor⟩, ends.2.2⟩,
      digits_clean minor plainMinor⟩
  have buf : c_str before header (some 0) = front ++ cstr rest := by
    rw [c_str, List.drop_zero, shape]
    exact cstr_append front rest clean
  let first_number : Numeral :=
    ⟨[], [], major, List.forall_mem_nil _, Or.inl rfl, plainMajor, someMajor⟩
  let second_number : Numeral :=
    ⟨[], [], minor, List.forall_mem_nil _, Or.inl rfl, plainMinor, someMinor⟩
  rw [start, buf]
  refine ⟨text " ", [], path, text " ", first_number, second_number, cstr rest, ?_, ?_, by decide,
    named⟩
  · have version : text " HTTP/" = text " " ++ text "HTTP/" := by decide
    have root : text " /" = text " " ++ text "/" := by decide
    simp only [front, method, version, root, Numeral.bytes, first_number, second_number,
      List.nil_append, List.append_assoc]
  · have single : text " " = [32] := by decide
    intro char member
    rw [List.append_nil, List.mem_append, or_self, single, List.mem_singleton] at member
    rw [member]
    rfl

theorem request_unsized (before : Byte) (header : List Byte) (line : RequestLine header)
    (length : Int) : ¬ LooseLength (c_str before header none) length := by
  obtain ⟨path, major, minor, rest, shape, _⟩ := line
  rintro ⟨numeral, more, split, _⟩
  -- The byte ahead of the string may be a C, but the string does not go on with an o.
  have method : text "POST /" = 80 :: text "OST /" := by decide
  have mark : lengthMark = 67 :: 111 :: text "ntent-Length:" := by decide
  rw [c_str, shape, method, mark, cstr] at split
  by_cases zero : before = 0
  · simp [zero] at split
  · simp [zero] at split

theorem LengthLine.unique {header ahead other : List Byte} {length value : Int}
    (left : LengthLine header ahead length) (right : LengthLine header other value)
    (same : ahead.length = other.length) : length = value := by
  obtain ⟨numeral, rest, split, _, _, stops, rfl⟩ := left
  obtain ⟨second, more, shape, _, _, ends, rfl⟩ := right
  rw [split] at shape
  simp only [List.append_assoc] at shape
  obtain ⟨_, behind⟩ := List.append_inj shape same
  exact numeral.unique second rest more (List.append_cancel_left behind) stops ends

theorem FirstLength.unique {header : List Byte} {length value : Int}
    (left : FirstLength header length) (right : FirstLength header value) : length = value := by
  obtain ⟨ahead, line, least⟩ := left
  obtain ⟨other, second, first⟩ := right
  exact line.unique second (Nat.le_antisymm (least _ _ second) (first _ _ line))

theorem LengthLine.first {header ahead : List Byte} {length : Int}
    (line : LengthLine header ahead length) : ∃ value, FirstLength header value := by
  let starts : Set (List Byte) := fun other => ∃ value, LengthLine header other value
  obtain ⟨least, ⟨value, there⟩, smallest⟩ :=
    WellFounded.has_min (measure List.length).wf starts ⟨ahead, length, line⟩
  refine ⟨value, least, there, ?_⟩
  intro other stored second
  exact Nat.not_lt.mp (smallest other ⟨stored, second⟩)

theorem proper_stored (numeral : Numeral) (rest : List Byte) (proper : Proper numeral)
    (stops : Stops isDigit rest) : Stored (numeral.bytes ++ rest) numeral.value := by
  have clean : 0 ∉ numeral.bytes := by
    rw [Numeral.bytes, proper.unsigned, List.append_nil]
    intro zero
    rcases List.mem_append.mp zero with gap | digits
    · exact absurd (numeral.blank 0 gap) (by decide)
    · exact digits_clean _ numeral.plain digits
  refine ⟨numeral, cstr rest, cstr_append _ _ clean, ?_, ?_⟩
  · cases rest with
    | nil => exact stops
    | cons first later =>
        intro char head
        by_cases zero : first = 0
        · simp [cstr, zero] at head
        · simp only [cstr, List.takeWhile_cons, bne_iff_ne, ne_eq, zero, not_false_eq_true,
            ↓reduceIte, List.head?_cons] at head
          exact stops char head
  · have value : numeral.value = decimal numeral.digits := by
      simp [Numeral.value, proper.unsigned]
    rw [value, storeInt_small _ proper.fits]

theorem Stored.unique {after : List Byte} {length value : Int} (left : Stored after length)
    (right : Stored after value) : length = value := by
  obtain ⟨numeral, rest, split, stops, rfl⟩ := left
  obtain ⟨second, more, shape, ends, rfl⟩ := right
  rw [numeral.unique second rest more (split.symm.trans shape) stops ends]

theorem loose_stored (before : Byte) (header ahead after : List Byte)
    (whole : header = ahead ++ lengthMark ++ after) (length : Int) :
    LooseLength (c_str before header (some ahead.length)) length ↔ Stored after length := by
  have buf : c_str before header (some ahead.length) = lengthMark ++ cstr after := by
    rw [c_str, whole, List.append_assoc, List.drop_left]
    exact cstr_append _ _ (by decide)
  simp only [LooseLength, Stored, buf, List.append_cancel_left_eq]

/-- A first `Content-Length:` that is of the form is that of the first line that starts so. -/
theorem proper_first (header ahead rest : List Byte) (numeral : Numeral) (proper : Proper numeral)
    (found : header.dropInfix? lengthMark = some (ahead, numeral.bytes ++ rest))
    (ends : crlf <:+ ahead) (stops : Stops isDigit rest) : FirstLength header numeral.value := by
  obtain ⟨whole, first⟩ := (Occurrence.split_iff _ _ _ _).mp found
  refine ⟨ahead, ⟨numeral, rest, ?_, ends, proper, stops, rfl⟩, ?_⟩
  · rw [whole, List.append_assoc _ numeral.bytes]
  · rintro other value ⟨second, more, shape, _⟩
    exact first other _ (by rw [shape, List.append_assoc _ second.bytes])

/-- Both sides have at most one value, so one that they share is enough. -/
theorem shared_agrees {header after : List Byte} {value : Int} (here : Stored after value)
    (starts : FirstLength header value) (length : Int) :
    Stored after length ↔ FirstLength header length := by
  constructor
  · intro second
    rwa [second.unique here]
  · intro second
    rwa [second.unique starts]

theorem length_sound (before : Byte) (header : List Byte) (line : RequestLine header) :
    (∀ length, LooseLength (c_str before header (find header lengthMark)) length ↔
      FirstLength header length) ↔ LengthSound header := by
  -- Without the text there is no length on either side; with it, its first place counts for the
  -- scan.
  cases found : header.dropInfix? lengthMark with
  | none =>
      have nowhere : find header lengthMark = none := by rw [find, found]
      have absent : ∀ length, ¬ FirstLength header length := by
        rintro length ⟨ahead, ⟨numeral, rest, split, _⟩, _⟩
        rw [List.append_assoc] at split
        exact (Occurrence.split_none_iff _ _).mp found _ _ split
      simp only [LengthSound, found, nowhere, iff_true]
      intro length
      exact iff_of_false (request_unsized before header line length) (absent length)
  | some parts =>
      obtain ⟨ahead, after⟩ := parts
      have there : find header lengthMark = some ahead.length := by rw [find, found]
      have stored := loose_stored before header ahead after (Occurrence.split_text _ _ _ _ found)
      simp only [LengthSound, found, there, stored]
      constructor
      · intro agrees
        by_cases stores : ∃ length, Stored after length
        · obtain ⟨length, here⟩ := stores
          exact Or.inr (Or.inl ⟨length, here, (agrees length).mp here⟩)
        · refine Or.inr (Or.inr ⟨fun length here => stores ⟨length, here⟩, ?_⟩)
          intro other length starts
          obtain ⟨value, here⟩ := starts.first
          exact stores ⟨value, (agrees value).mpr here⟩
      · rintro (⟨ends, numeral, rest, rfl, proper, stops⟩ | ⟨value, here, starts⟩ |
          ⟨unstored, without⟩)
        · exact shared_agrees (proper_stored numeral rest proper stops)
            (proper_first header ahead rest numeral proper found ends stops)
        · exact shared_agrees here starts
        · intro length
          refine iff_of_false (unstored length) ?_
          rintro ⟨other, starts, _⟩
          exact without other length starts

/-- The header is recognised as it should be exactly where neither scan is misled. -/
theorem recognised_iff (before : Byte) (header : List Byte) :
    Recognised before header ↔ Sound before header := by
  unfold Recognised
  simp only [GetInfo_iff]
  -- Without a request line nothing is to be recognised, so a scan has to fail.
  by_cases line : RequestLine header
  · have loose := request_loose before header line
    simp only [loose, line, true_and, length_sound before header line]
    constructor
    · intro sound
      exact ⟨fun _ => sound, fun other => absurd line other⟩
    · intro sound
      exact sound.request line
  · simp only [line, false_and, iff_false, not_and]
    constructor
    · intro refused
      refine ⟨fun request => absurd request line, fun _ => ?_⟩
      by_cases loose : LooseLine (c_str before header (find header (text "POST")))
      · exact Or.inr fun length => refused length loose
      · exact Or.inl loose
    · intro sound length loose
      exact (sound.other line).resolve_left (not_not.mpr loose) length

def otherField : List Byte := text "POST /request HTTP/1.1\r\nX-Content-Length: 5"

/-- A header without a length is accepted. -/
theorem other_field_recognised : ¬ ∀ before header, Recognised before header := by
  intro recognised
  have accepted : GetInfo 0 otherField = some 5 := by decide +kernel
  obtain ⟨_, ahead, ⟨numeral, rest, split, ⟨front, ends⟩, _⟩, _⟩ :=
    (recognised 0 otherField 5).mp accepted
  have absent : ¬ crlf ++ lengthMark <:+: otherField := by decide +kernel
  apply absent
  refine ⟨front, numeral.bytes ++ rest, ?_⟩
  rw [split, ← ends]
  simp

end AsrServer.RequestForm
