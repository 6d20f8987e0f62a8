import AsrServer.ChunkRounds
import AsrServer.Numbers

/-!
When `readHttpResponse` gives one result however the response is cut into pieces. It
tests its limits (4096 bytes of header, 20480 bytes missing) against what has
happened to arrive: all that matters of a fragmentation is how many bytes one `recv`
brings beyond the header, or beyond the size line of a chunk. Both numbers range from 0
to less than a buffer, so a limit decides alike for all of them or it does not.
-/

namespace AsrServer.ResponseFragments

open Bytes RequestHeader Numbers ChunkedContent HttpResponse ChunkRounds

/-! Complete responses. -/

def lengthMark : List Byte := text "Content-Length:"

/-- The first `Content-Length:` of a header, with more than white space behind it. -/
structure Field (head : List Byte) where
  before : List Byte
  tail : List Byte
  found : head.dropInfix? lengthMark = some (before, tail)
  written : ∃ char ∈ tail, isSpace char = false

/-- A chunked body under a header that says so; a body that has the bytes the header asks
for; or one whose header spells neither in the way the source looks for. -/
inductive Body (head : List Byte) where
  | chunked (marked : chunkedMark <:+: head) (body : ChunkedBody)
  | length (unmarked : ¬ chunkedMark <:+: head) (field : Field head) (content : List Byte)
      (counts : atoi field.tail ≤ content.length)
  | other (unmarked : ¬ chunkedMark <:+: head) (unsized : ¬ lengthMark <:+: head)
      (content : List Byte)

def Body.bytes {head : List Byte} : Body head → List Byte
  | .chunked _ body => body.bytes
  | .length _ _ content _ => content
  | .other _ _ content => content

/-- `before` is the header block without the `CRLFCRLF` that ends it; all of it fits
a string. -/
structure Response where
  before : List Byte
  first : ∀ left right, before ++ crlfcrlf = left ++ crlfcrlf ++ right → right = []
  body : Body (before ++ crlfcrlf)
  fits : (before ++ crlfcrlf ++ body.bytes).length < 2 ^ 63

def Response.bytes (response : Response) : List Byte :=
  response.before ++ crlfcrlf ++ response.body.bytes

def Response.header (response : Response) : Nat := response.before.length + 4

/-- One outcome under every fragmentation. -/
def Steady (response : Response) : Prop :=
  ∃ outcome, ∀ plan, Fragments response.bytes plan →
    readHttpResponse ⟨response.bytes, plan⟩ = some outcome

def reach (header : Nat) : Nat := min 4096 (header - 1) + bufSize - header

/-- The header is never found; or the length is not accepted, or too much is missing,
whatever has arrived; or the header is always found and nothing is in the way. -/
def LengthSteady (header length : Nat) (content_length : Int) : Prop :=
  4096 + bufSize < header ∨ content_length < 0 ∨
    ((bufSize + min length (reach header) : Nat) : Int) < content_length ∨
    (header ≤ 4097 ∧ ((min length (reach header) : Nat) : Int) ≤ content_length ∧
      content_length ≤ bufSize)

/-- The header is never found; or the first chunk is always too large; or the header is
always found and no chunk is read only sometimes, up to one that never is. -/
def ChunksSteady (header : Nat) (pieces : List Piece) : Prop :=
  4096 + bufSize < header ∨
    (∃ piece, pieces.head? = some piece ∧ possible < piece.data.length) ∨
    (header ≤ 4097 ∧ Decided pieces)

def Insensitive (response : Response) : Prop :=
  match response.body with
  | .chunked _ body => ChunksSteady response.header body.pieces
  | .length _ field content _ => LengthSteady response.header content.length (atoi field.tail)
  | .other _ _ _ => True

/-! Looking something up in a header that body bytes have been appended to. -/

theorem find_in_head (before more pattern : List Byte) (line : 10 ∉ pattern.dropLast)
    (present : pattern ≠ []) :
    (∃ pos, find (before ++ crlfcrlf ++ more) pattern = some pos ∧ pos < before.length + 4) ↔
      pattern <:+: before ++ crlfcrlf := by
  have size : (before ++ crlfcrlf).length = before.length + 4 := by simp
  constructor
  · rintro ⟨pos, found, inside⟩
    cases split : (before ++ crlfcrlf ++ more).dropInfix? pattern with
    | none =>
        simp only [find, split] at found
        cases found
    | some parts =>
        simp only [find, split, Option.some.injEq] at found
        have same := Occurrence.split_text _ _ _ _ split
        have shape : before ++ crlfcrlf = before ++ text "\r\n\r" ++ [10] := by
          rw [List.append_assoc]
          rfl
        have ends := Occurrence.ends_inside (before ++ text "\r\n\r") more parts.1 parts.2 pattern
          10 line (by rw [← shape]; exact same) (by rw [← shape]; omega)
        rw [← shape] at ends
        have front := congrArg (List.take (parts.1 ++ pattern).length) same
        rw [List.take_left, List.take_append_of_le_length (by
          rw [List.length_append]
          exact ends)] at front
        have whole := List.take_append_drop (parts.1 ++ pattern).length (before ++ crlfcrlf)
        rw [front] at whole
        exact ⟨parts.1, _, whole⟩
  · intro inside
    cases split : (before ++ crlfcrlf).dropInfix? pattern with
    | none =>
        obtain ⟨left, right, same⟩ := inside
        exact absurd same.symm ((Occurrence.split_none_iff _ _).mp split left right)
    | some parts =>
        have further := Occurrence.split_append _ _ _ _ more split
        have lengths := congrArg List.length (Occurrence.split_text _ _ _ _ split)
        have positive := List.length_pos_iff.mpr present
        rw [size, List.length_append, List.length_append] at lengths
        exact ⟨parts.1.length, by rw [find, further], by omega⟩

/-! What `atoi` makes of the header does not change with what comes behind it. -/

theorem atoi_number (memory : List Byte) : atoi memory = storeInt (number (cstr memory)) := by
  rw [atoi, scanNumber_parts]
  by_cases empty : digits (cstr memory) = []
  · have zero : storeInt 0 = 0 := by decide +kernel
    simp [empty, number, decimal, zero]
  · rw [if_neg empty]

theorem atoi_zero (string more : List Byte) (zero : 0 ∈ string) :
    atoi (string ++ more) = atoi string := by
  rw [atoi_number, atoi_number, cstr, takeWhile_stops _ _ _ ⟨0, zero, rfl⟩]
  rfl

theorem atoi_append (string more : List Byte) (clean : 0 ∉ string) :
    atoi (string ++ more) = storeInt (number (string ++ cstr more)) := by
  rw [atoi_number, cstr_append _ _ clean]

theorem atoi_stops (string more : List Byte)
    (stops : ∃ char ∈ unsigned string, isDigit char = false) :
    atoi (string ++ more) = atoi string := by
  by_cases zero : 0 ∈ string
  · exact atoi_zero string more zero
  · rw [atoi_append _ _ zero, number_stops _ _ stops, atoi_number, cstr_eq _ zero]

theorem Field.value {before : List Byte} (field : Field (before ++ crlfcrlf)) (more : List Byte) :
    atoi (field.tail ++ more) = atoi field.tail := by
  obtain ⟨char, member, shows⟩ := field.written
  have text := Occurrence.split_text _ _ _ _ field.found
  obtain ⟨front, last, shape⟩ : ∃ front last, field.tail = front ++ [last] := by
    rcases List.eq_nil_or_concat field.tail with empty | ⟨front, last, shape⟩
    · rw [empty] at member
      cases member
    · rw [List.concat_eq_append] at shape
      exact ⟨front, last, shape⟩
  have ends := congrArg List.getLast? text
  rw [shape, ← List.append_assoc, List.getLast?_concat,
    List.getLast?_append_of_ne_nil _ (by decide)] at ends
  have newline : last = 10 := (Option.some.inj ends).symm
  rw [newline] at shape
  rw [shape] at member ⊢
  have written : skipSpace front ≠ [] := by
    intro blank
    rcases List.mem_append.mp member with inside | final
    · rw [List.dropWhile_eq_nil_iff.mp blank char inside] at shows
      cases shows
    · rw [List.mem_singleton.mp final] at shows
      cases shows
  -- The line feed is behind the sign, and no digit.
  refine atoi_stops (front ++ [10]) more ⟨10, ?_, by decide⟩
  rw [(number_append front [10] written).2]
  exact List.mem_append_right _ (List.mem_singleton_self 10)

/-! The first loop, under every fragmentation and under some. -/

section Header

variable {before content : List Byte}
  (first : ∀ left right, before ++ crlfcrlf = left ++ crlfcrlf ++ right → right = [])

include first

theorem header_any (plan : List Nat) (fragments : Fragments (before ++ crlfcrlf ++ content) plan) :
    (header_loop [] (before ++ crlfcrlf ++ content) plan = none ∧ 4097 < before.length + 4) ∨
      ∃ length later, header_loop [] (before ++ crlfcrlf ++ content) plan =
          some (before.length + 4, (before ++ crlfcrlf ++ content).take length,
            ⟨(before ++ crlfcrlf ++ content).drop length, later⟩) ∧
        Fragments ((before ++ crlfcrlf ++ content).drop length) later ∧
        before.length + 4 ≤ length ∧ length ≤ (before ++ crlfcrlf ++ content).length ∧
        length ≤ min 4096 (before.length + 3) + bufSize := by
  have ends := Occurrence.split_of_first crlfcrlf before content first
  have start : Reading (before ++ crlfcrlf ++ content) [] ⟨before ++ crlfcrlf ++ content, plan⟩ :=
    ⟨rfl, fragments⟩
  rcases header_loop_finds _ before content ends plan [] _ start (Nat.succ_pos _)
    (Nat.zero_le _) with missed | ⟨last, stream, found, reading, reaches, bound⟩
  · exact Or.inl missed
  · right
    obtain ⟨front, rest⟩ := reading.shape
    have whole := congrArg List.length reading.whole
    rw [List.length_append] at whole
    refine ⟨last.length, stream.plan, ?_, ?_, reaches, by omega, bound⟩
    · rw [found, ← front, ← rest]
    · have fragments := reading.fragments
      rw [rest] at fragments
      exact fragments

theorem header_reached (beyond : Nat) (inside : beyond ≤ content.length)
    (close : before.length + 4 + beyond ≤ min 4096 (before.length + 3) + bufSize) :
    ∃ front, Positive front ∧ ∀ more,
      header_loop [] (before ++ crlfcrlf ++ content) (front ++ more) =
        some (before.length + 4, (before ++ crlfcrlf ++ content).take (before.length + 4 + beyond),
          ⟨(before ++ crlfcrlf ++ content).drop (before.length + 4 + beyond), more⟩) := by
  have ends := Occurrence.split_of_first crlfcrlf before content first
  have total : (before ++ crlfcrlf ++ content).length = before.length + 4 + content.length := by
    simp only [List.length_append, crlfcrlf_length]
  refine ⟨_, positive_stops (min 4096 (before.length + 3))
    (before.length + 4 + beyond - (0 + min 4096 (before.length + 3))) (by omega), ?_⟩
  intro more
  have run := header_loop_stops _ before content ends 0 (before.length + 4 + beyond) more
    (min 4096 (before.length + 3)) (by omega) (by omega) (by omega) (by omega) (by omega)
  rw [List.take_zero, List.drop_zero] at run
  rw [List.append_assoc (List.replicate _ _), List.singleton_append]
  exact run

end Header

/-- A front is completed to a fragmentation by single bytes. -/
theorem complete (unread : List Byte) (front : List Nat) (positive : Positive front) :
    Fragments unread (front ++ List.replicate unread.length 1) := by
  constructor
  · apply positive.append
    intro size member
    rw [(List.mem_replicate.mp member).2]
    decide
  · rw [List.length_append, List.length_replicate]
    omega

theorem response_missed (before content : List Byte)
    (first : ∀ left right, before ++ crlfcrlf = left ++ crlfcrlf ++ right → right = [])
    (long : 4097 < before.length + 4) :
    ∃ plan, Fragments (before ++ crlfcrlf ++ content) plan ∧
      readHttpResponse ⟨before ++ crlfcrlf ++ content, plan⟩ = some (-1, []) := by
  have ends := Occurrence.split_of_first crlfcrlf before content first
  have positive : Positive (List.replicate 4097 1) := by
    intro size member
    rw [(List.mem_replicate.mp member).2]
    decide
  have run := header_loop_misses _ before content ends 0
    (List.replicate (before ++ crlfcrlf ++ content).length 1) 4097 long rfl (by decide)
  rw [List.take_zero, List.drop_zero] at run
  exact ⟨_, complete (before ++ crlfcrlf ++ content) _ positive, by
    simp only [readHttpResponse, run]⟩

/-! A body that the header gives the length of. -/

def lengthOutcome (content_length : Int) (beyond : Nat) (content : List Byte) : Int × List Byte :=
  if content_length < 0 ∨ content_length < beyond ∨ (bufSize : Int) < content_length - beyond then
    (-1, [])
  else (0, content.take content_length.toNat)

section Length

variable {before content : List Byte} (unmarked : ¬ chunkedMark <:+: before ++ crlfcrlf)
  (field : Field (before ++ crlfcrlf)) (counts : atoi field.tail ≤ content.length)
  (fits : (before ++ crlfcrlf ++ content).length < 2 ^ 63)

theorem come_in (length : Nat) (reaches : before.length + 4 ≤ length) :
    (before ++ crlfcrlf ++ content).take length =
      before ++ crlfcrlf ++ content.take (length - (before.length + 4)) := by
  have size : (before ++ crlfcrlf).length = before.length + 4 := by simp
  rw [List.take_append, List.take_of_length_le (by omega), size]

include unmarked in
theorem unmarked_skips (length : Nat) (later : List Nat) (reaches : before.length + 4 ≤ length)
    (plan : List Nat)
    (found : header_loop [] (before ++ crlfcrlf ++ content) plan =
      some (before.length + 4, (before ++ crlfcrlf ++ content).take length,
        ⟨(before ++ crlfcrlf ++ content).drop length, later⟩)) :
    readHttpResponse ⟨before ++ crlfcrlf ++ content, plan⟩ =
      some (readHttpConten_Length ((before ++ crlfcrlf ++ content).take length)
        (before.length + 4) ⟨(before ++ crlfcrlf ++ content).drop length, later⟩) := by
  have nowhere := mt (find_in_head before (content.take (length - (before.length + 4)))
    chunkedMark (by decide) (by decide)).mp unmarked
  rw [← come_in length reaches] at nowhere
  simp only [readHttpResponse, found]
  cases pos : find ((before ++ crlfcrlf ++ content).take length) chunkedMark with
  | none => rfl
  | some pos' =>
      have behind : ¬ pos' < before.length + 4 := fun inside => nowhere ⟨pos', pos, inside⟩
      simp only [behind, ↓reduceIte]

theorem field_inside : field.before.length < before.length + 4 := by
  have size : (before ++ crlfcrlf).length = before.length + 4 := by simp
  have mark : lengthMark.length = 15 := by decide
  have lengths := congrArg List.length (Occurrence.split_text _ _ _ _ field.found)
  rw [size, List.length_append, List.length_append, mark] at lengths
  omega

theorem field_found (length : Nat) (reaches : before.length + 4 ≤ length) :
    find ((before ++ crlfcrlf ++ content).take length) lengthMark = some field.before.length ∧
      ((before ++ crlfcrlf ++ content).take length).drop (field.before.length + 15) =
        field.tail ++ content.take (length - (before.length + 4)) := by
  have mark : lengthMark.length = 15 := by decide
  have further := Occurrence.split_append _ _ _ _
    (content.take (length - (before.length + 4))) field.found
  rw [← come_in length reaches] at further
  constructor
  · rw [find, further]
  · have count : field.before.length + 15 = (field.before ++ lengthMark).length := by
      rw [List.length_append, mark]
    rw [Occurrence.split_text _ _ _ _ further, count, List.drop_left]

include counts fits in
theorem length_decides (length : Nat) (later : List Nat) (reaches : before.length + 4 ≤ length)
    (inside : length ≤ (before ++ crlfcrlf ++ content).length)
    (fragments : Fragments ((before ++ crlfcrlf ++ content).drop length) later) :
    readHttpConten_Length ((before ++ crlfcrlf ++ content).take length) (before.length + 4)
        ⟨(before ++ crlfcrlf ++ content).drop length, later⟩ =
      lengthOutcome (atoi field.tail) (length - (before.length + 4)) content := by
  have size : (before ++ crlfcrlf).length = before.length + 4 := by simp
  have total : (before ++ crlfcrlf ++ content).length = before.length + 4 + content.length := by
    rw [List.length_append, size]
  have pos : find ((before ++ crlfcrlf ++ content).take length) (text "Content-Length:") =
      some field.before.length := (field_found field length reaches).1
  have tail : ((before ++ crlfcrlf ++ content).take length).drop (field.before.length + 15) =
      field.tail ++ content.take (length - (before.length + 4)) :=
    (field_found field length reaches).2
  have ahead := field_inside field
  have within : ¬ before.length + 4 ≤ field.before.length := by omega
  have counted : ((before ++ crlfcrlf ++ content).take length).length = length :=
    List.length_take_of_le inside
  simp only [readHttpConten_Length, pos, within, ↓reduceIte, tail, field.value, counted]
  generalize atoi field.tail = content_length at counts ⊢
  -- Negative, less than has come in, more than a buffer away, or all there with one more read.
  by_cases negative : content_length < 0
  · simp [lengthOutcome, negative]
  · have remain : toSsize (((before.length + 4 : Nat) : Int) + content_length - length) =
        before.length + 4 + content_length - length := by
      rw [toSsize_eq _ (by omega) (by omega)]
      omega
    simp only [negative, ↓reduceIte, remain]
    by_cases less : (before.length + 4 : Int) + content_length - length < 0
    · have beyond : content_length < (length - (before.length + 4) : Nat) := by omega
      simp [lengthOutcome, less, beyond]
    · by_cases far : (bufSize : Int) < before.length + 4 + content_length - length
      · have missing : (bufSize : Int) < content_length - (length - (before.length + 4) : Nat) := by
          omega
        have positive : (0 : Int) < before.length + 4 + content_length - length := by omega
        rw [if_neg less, if_pos positive, if_pos far, lengthOutcome,
          if_pos (Or.inr (Or.inr missing))]
      · have fine : ¬ (content_length < 0 ∨ content_length < (length - (before.length + 4) : Nat) ∨
            (bufSize : Int) < content_length - (length - (before.length + 4) : Nat)) := by
          omega
        have content_part : ∀ count, count = before.length + 4 + content_length.toNat →
            ((before ++ crlfcrlf ++ content).take count).drop (before.length + 4) =
              content.take content_length.toNat := by
          intro count same
          rw [come_in count (by omega), ← size, List.drop_left, size, same,
            Nat.add_sub_cancel_left]
        rw [if_neg less, lengthOutcome, if_neg fine]
        by_cases wanting : (0 : Int) < before.length + 4 + content_length - length
        · have reading : Reading (before ++ crlfcrlf ++ content)
              ((before ++ crlfcrlf ++ content).take length)
              ⟨(before ++ crlfcrlf ++ content).drop length, later⟩ :=
            ⟨List.take_append_drop _ _, fragments⟩
          obtain ⟨stream, read, _⟩ := read_nReal_reads _ later
            (before.length + 4 + content_length - length : Int).toNat _ _ reading (by
              rw [List.length_drop]
              omega)
          rw [if_pos wanting, if_neg far, read]
          simp only [← List.take_add]
          rw [content_part _ (by omega)]
        · rw [if_neg wanting, content_part _ (by omega)]

variable (first : ∀ left right, before ++ crlfcrlf = left ++ crlfcrlf ++ right → right = [])

include unmarked counts fits first in
theorem length_any (plan : List Nat) (fragments : Fragments (before ++ crlfcrlf ++ content) plan) :
    (readHttpResponse ⟨before ++ crlfcrlf ++ content, plan⟩ = some (-1, []) ∧
        4097 < before.length + 4) ∨
      ∃ beyond, beyond ≤ content.length ∧
        before.length + 4 + beyond ≤ min 4096 (before.length + 3) + bufSize ∧
        readHttpResponse ⟨before ++ crlfcrlf ++ content, plan⟩ =
          some (lengthOutcome (atoi field.tail) beyond content) := by
  rcases header_any first plan fragments with
    ⟨missed, long⟩ | ⟨length, later, found, rest, reaches, inside, bound⟩
  · exact Or.inl ⟨by simp only [readHttpResponse, missed], long⟩
  · right
    have total : (before ++ crlfcrlf ++ content).length = before.length + 4 + content.length := by
      simp only [List.length_append, crlfcrlf_length]
    refine ⟨length - (before.length + 4), by omega, by omega, ?_⟩
    rw [unmarked_skips unmarked length later reaches plan found,
      length_decides field counts fits length later reaches inside rest]

include unmarked counts fits first in
theorem length_reached (beyond : Nat) (inside : beyond ≤ content.length)
    (close : before.length + 4 + beyond ≤ min 4096 (before.length + 3) + bufSize) :
    ∃ plan, Fragments (before ++ crlfcrlf ++ content) plan ∧
      readHttpResponse ⟨before ++ crlfcrlf ++ content, plan⟩ =
        some (lengthOutcome (atoi field.tail) beyond content) := by
  obtain ⟨front, positive, found⟩ := header_reached first beyond inside close
  have total : (before ++ crlfcrlf ++ content).length = before.length + 4 + content.length := by
    simp only [List.length_append, crlfcrlf_length]
  have fragments := complete (before ++ crlfcrlf ++ content) front positive
  have rest : Fragments ((before ++ crlfcrlf ++ content).drop (before.length + 4 + beyond))
      (List.replicate (before ++ crlfcrlf ++ content).length 1) := by
    constructor
    · intro size member
      exact fragments.positive size (List.mem_append_right _ member)
    · rw [List.length_drop, List.length_replicate]
      omega
  refine ⟨_, fragments, ?_⟩
  rw [unmarked_skips unmarked _ _ (Nat.le_add_right _ _) _ (found _),
    length_decides field counts fits _ _ (Nat.le_add_right _ _) (by omega) rest,
    Nat.add_sub_cancel_left]

theorem lengthOutcome_code (content_length : Int) (beyond : Nat) (content : List Byte) :
    (lengthOutcome content_length beyond content).1 =
      if content_length < 0 ∨ content_length < beyond ∨
        (bufSize : Int) < content_length - beyond then -1 else 0 := by
  rw [lengthOutcome]
  split <;> rfl

include unmarked counts fits first in
theorem length_agrees (near : before.length + 4 ≤ 4096 + bufSize) (outcome : Int × List Byte)
    (steady : ∀ plan, Fragments (before ++ crlfcrlf ++ content) plan →
      readHttpResponse ⟨before ++ crlfcrlf ++ content, plan⟩ = some outcome) :
    (lengthOutcome (atoi field.tail) 0 content).1 = outcome.1 ∧
      (lengthOutcome (atoi field.tail) (min content.length (reach (before.length + 4)))
        content).1 = outcome.1 := by
  have buffer : bufSize = 20480 := rfl
  obtain ⟨least, fragments, least_code⟩ := length_reached unmarked field counts fits first 0
    (Nat.zero_le _) (by omega)
  obtain ⟨most, others, all⟩ := length_reached unmarked field counts fits first
    (min content.length (reach (before.length + 4))) (Nat.min_le_left _ _) (by
      rw [reach]
      omega)
  rw [steady least fragments, Option.some.injEq] at least_code
  rw [steady most others, Option.some.injEq] at all
  exact ⟨congrArg Prod.fst least_code.symm, congrArg Prod.fst all.symm⟩

include unmarked counts fits first in
theorem length_read (steady : LengthSteady (before.length + 4) content.length (atoi field.tail))
    (plan : List Nat) (fragments : Fragments (before ++ crlfcrlf ++ content) plan) :
    readHttpResponse ⟨before ++ crlfcrlf ++ content, plan⟩ =
      some (if before.length + 4 ≤ 4097 ∧ 0 ≤ atoi field.tail ∧ atoi field.tail ≤ bufSize then
        (0, content.take (atoi field.tail).toNat) else (-1, [])) := by
  have buffer : bufSize = 20480 := rfl
  unfold LengthSteady reach at steady
  rcases length_any unmarked field counts fits first plan fragments with
    ⟨missed, long⟩ | ⟨beyond, inside, close, found⟩
  · rw [missed, if_neg (by omega)]
  · rw [found, lengthOutcome]
    by_cases fine : before.length + 4 ≤ 4097 ∧ 0 ≤ atoi field.tail ∧
        atoi field.tail ≤ bufSize
    · rw [if_pos fine, if_neg (by omega)]
    · rw [if_neg fine, if_pos (by omega)]

include unmarked counts fits first in
theorem length_steady :
    (∃ outcome, ∀ plan, Fragments (before ++ crlfcrlf ++ content) plan →
        readHttpResponse ⟨before ++ crlfcrlf ++ content, plan⟩ = some outcome) ↔
      LengthSteady (before.length + 4) content.length (atoi field.tail) := by
  constructor
  · rintro ⟨outcome, steady⟩
    by_cases never : 4096 + bufSize < before.length + 4
    · exact Or.inl never
    · have buffer : bufSize = 20480 := rfl
      obtain ⟨low, high⟩ := length_agrees unmarked field counts fits first (by omega) outcome
        steady
      rw [lengthOutcome_code] at low high
      unfold LengthSteady
      have limit : reach (before.length + 4) < bufSize := by
        rw [reach]
        omega
      generalize reach (before.length + 4) = most at high limit ⊢
      rw [← low] at high
      by_cases negative : atoi field.tail < 0
      · exact Or.inr (Or.inl negative)
      · by_cases large : (bufSize : Int) < atoi field.tail
        · have fails : atoi field.tail < 0 ∨ atoi field.tail < (min content.length most : Nat) ∨
              (bufSize : Int) < atoi field.tail - (min content.length most : Nat) := by
            by_contra fine
            rw [if_neg fine, if_pos (by omega)] at high
            exact absurd high (by decide)
          right; right; left
          omega
        · have fine : ¬ (atoi field.tail < 0 ∨ atoi field.tail < (min content.length most : Nat) ∨
              (bufSize : Int) < atoi field.tail - (min content.length most : Nat)) := by
            intro fails
            rw [if_pos fails, if_neg (by omega)] at high
            exact absurd high (by decide)
          right; right; right
          refine ⟨?_, by omega, by omega⟩
          -- A long header can be missed.
          by_contra long
          obtain ⟨plan, missing, failed⟩ := response_missed before content first (by omega)
          rw [steady plan missing, Option.some.injEq] at failed
          rw [failed, if_neg (by omega)] at low
          exact absurd low (by decide)
  · intro steady
    exact ⟨_, length_read unmarked field counts fits first steady⟩

end Length

/-! A chunked body. -/

theorem pieces_length (pieces : List Piece) :
    pieces.length ≤ (pieces.flatMap Piece.encode).length := by
  induction pieces with
  | nil => exact Nat.le_refl 0
  | cons piece pieces ih =>
      rw [List.flatMap_cons, List.length_append, piece.encode_length, List.length_cons]
      omega

section Chunked

variable {before : List Byte} (body : ChunkedBody)
  (marked : chunkedMark <:+: before ++ crlfcrlf)
  (fits : (before ++ crlfcrlf ++ body.bytes).length < 2 ^ 63)
  (first : ∀ left right, before ++ crlfcrlf = left ++ crlfcrlf ++ right → right = [])

variable (before) in
theorem behind_head : (before ++ crlfcrlf ++ body.bytes).drop (before.length + 4) =
    body.pieces.flatMap Piece.encode ++ body.ending := by
  have size : before.length + 4 = (before ++ crlfcrlf).length := by simp
  rw [size, List.drop_left]
  rfl

variable (before) in
theorem pieces_fit : body.pieces.length ≤ (before ++ crlfcrlf ++ body.bytes).length := by
  have count := pieces_length body.pieces
  simp only [ChunkedBody.bytes, List.length_append]
  omega

include marked in
theorem marked_goes (length : Nat) (later : List Nat) (reaches : before.length + 4 ≤ length)
    (inside : length ≤ (before ++ crlfcrlf ++ body.bytes).length) (plan : List Nat)
    (found : header_loop [] (before ++ crlfcrlf ++ body.bytes) plan =
      some (before.length + 4, (before ++ crlfcrlf ++ body.bytes).take length,
        ⟨(before ++ crlfcrlf ++ body.bytes).drop length, later⟩)) :
    readHttpResponse ⟨before ++ crlfcrlf ++ body.bytes, plan⟩ =
      rounds (before ++ crlfcrlf ++ body.bytes) ((before ++ crlfcrlf ++ body.bytes).length + 1)
        (before.length + 4) length later [] := by
  obtain ⟨pos, here, within⟩ := (find_in_head before
    (body.bytes.take (length - (before.length + 4))) chunkedMark (by decide) (by decide)).mpr
      marked
  rw [← come_in length reaches] at here
  have counted : ((before ++ crlfcrlf ++ body.bytes).take length).length +
      ((before ++ crlfcrlf ++ body.bytes).drop length).length + 1 =
      (before ++ crlfcrlf ++ body.bytes).length + 1 := by
    rw [List.length_take_of_le inside, List.length_drop]
    omega
  simp only [readHttpResponse, found, here, within, ↓reduceIte, readHttpIs_Chunk, counted, rounds]

include marked fits first in
theorem chunked_any (plan : List Nat)
    (fragments : Fragments (before ++ crlfcrlf ++ body.bytes) plan) :
    (readHttpResponse ⟨before ++ crlfcrlf ++ body.bytes, plan⟩ = some (-1, []) ∧
        4097 < before.length + 4) ∨
      (before.length + 4 ≤ 4096 + bufSize ∧ ∃ done rest, body.pieces = done ++ rest ∧
        (∀ piece ∈ done, piece.data.length ≤ possible) ∧
        (∀ piece, rest.head? = some piece → sure < piece.data.length) ∧
        readHttpResponse ⟨before ++ crlfcrlf ++ body.bytes, plan⟩ =
          some (if rest = [] then 0 else -1, done.flatMap Piece.data)) := by
  rcases header_any first plan fragments with
    ⟨missed, long⟩ | ⟨length, later, found, unread, reaches, inside, bound⟩
  · exact Or.inl ⟨by simp only [readHttpResponse, missed], long⟩
  · right
    have bytes := behind_head before body
    have count := pieces_fit before body
    obtain ⟨done, rest, parts, within, stops, ran⟩ := rounds_stop body _ fits body.pieces
      (before.length + 4) length ((before ++ crlfcrlf ++ body.bytes).length + 1) later []
      ⟨unread, reaches, by omega, inside⟩ (by omega) bytes (by omega)
    refine ⟨by omega, done, rest, parts, within, stops, ?_⟩
    rw [marked_goes body marked length later reaches inside plan found, ran, List.nil_append]

include marked first in
theorem marked_starts (near : before.length + 4 ≤ 4096 + bufSize) :
    ∃ front, Positive front ∧ ∀ more,
      readHttpResponse ⟨before ++ crlfcrlf ++ body.bytes, front ++ more⟩ =
        rounds (before ++ crlfcrlf ++ body.bytes) ((before ++ crlfcrlf ++ body.bytes).length + 1)
          (before.length + 4) (before.length + 4) more [] := by
  obtain ⟨front, positive, found⟩ := header_reached first 0
    (Nat.zero_le body.bytes.length) (by
      have buffer : bufSize = 20480 := rfl
      omega)
  have size : before.length + 4 ≤ (before ++ crlfcrlf ++ body.bytes).length := by
    simp only [List.length_append, crlfcrlf_length]
    omega
  exact ⟨front, positive, fun more =>
    marked_goes body marked _ _ (Nat.le_refl _) size _ (found more)⟩

include marked fits first in
/-- Any chunks that can be read are, and the plan can go on from there as it likes. -/
theorem chunks_pass (near : before.length + 4 ≤ 4096 + bufSize) (done rest : List Piece)
    (parts : body.pieces = done ++ rest) (small : ∀ piece ∈ done, piece.data.length ≤ possible) :
    ∃ pos front, Positive front ∧ pos ≤ (before ++ crlfcrlf ++ body.bytes).length ∧
      (before ++ crlfcrlf ++ body.bytes).drop pos = rest.flatMap Piece.encode ++ body.ending ∧
      done.length + rest.length ≤ (before ++ crlfcrlf ++ body.bytes).length ∧
      ∀ more, readHttpResponse ⟨before ++ crlfcrlf ++ body.bytes, front ++ more⟩ =
        rounds (before ++ crlfcrlf ++ body.bytes)
          ((before ++ crlfcrlf ++ body.bytes).length - done.length + 1) pos pos more
          (done.flatMap Piece.data) := by
  obtain ⟨front, positive, starts⟩ := marked_starts body marked first near
  have bytes := behind_head before body
  have count := pieces_fit before body
  have size : before.length + 4 ≤ (before ++ crlfcrlf ++ body.bytes).length := by
    simp only [List.length_append, crlfcrlf_length]
    omega
  rw [parts, List.flatMap_append, List.append_assoc (done.flatMap _)] at bytes
  rw [parts, List.length_append] at count
  generalize before ++ crlfcrlf ++ body.bytes = response at *
  obtain ⟨passing, ones, run⟩ := pieces_pass response fits done _ _ size bytes small
  have lengths := congrArg List.length bytes
  simp only [List.length_drop, List.length_append] at lengths
  refine ⟨before.length + 4 + (done.flatMap Piece.encode).length, front ++ passing,
    positive.append ones, by omega, ?_, count, ?_⟩
  · rw [← List.drop_drop, bytes, List.drop_left]
  · intro more
    have fuel : response.length + 1 = response.length - done.length + 1 + done.length := by omega
    rw [List.append_assoc, starts, fuel, run, List.nil_append]

include marked fits first in
theorem chunked_passes (near : before.length + 4 ≤ 4096 + bufSize) (done rest : List Piece)
    (parts : body.pieces = done ++ rest) (small : ∀ piece ∈ done, piece.data.length ≤ possible) :
    ∃ plan more left, Fragments (before ++ crlfcrlf ++ body.bytes) plan ∧ rest = more ++ left ∧
      readHttpResponse ⟨before ++ crlfcrlf ++ body.bytes, plan⟩ =
        some (if left = [] then 0 else -1, done.flatMap Piece.data ++ more.flatMap Piece.data) := by
  obtain ⟨pos, front, positive, inside, after, count, passes⟩ :=
    chunks_pass body marked fits first near done rest parts small
  generalize before ++ crlfcrlf ++ body.bytes = response at *
  have fragments := complete response front positive
  have round : Round response pos pos (List.replicate response.length 1) := by
    refine ⟨⟨?_, ?_⟩, Nat.le_refl _, Nat.lt_add_of_pos_right (by decide), inside⟩
    · intro size member
      exact fragments.positive size (List.mem_append_right _ member)
    · rw [List.length_drop, List.length_replicate]
      omega
  obtain ⟨more, left, split, _, _, ran⟩ := rounds_stop body response fits rest _ _
    (response.length - done.length + 1) _ (done.flatMap Piece.data) round inside after (by omega)
  refine ⟨_, more, left, fragments, split, ?_⟩
  rw [passes, ran]

include marked fits first in
theorem chunked_fails (near : before.length + 4 ≤ 4096 + bufSize) (done later : List Piece)
    (piece : Piece) (parts : body.pieces = done ++ piece :: later)
    (small : ∀ piece ∈ done, piece.data.length ≤ possible)
    (large : sure < piece.data.length) :
    ∃ plan, Fragments (before ++ crlfcrlf ++ body.bytes) plan ∧
      readHttpResponse ⟨before ++ crlfcrlf ++ body.bytes, plan⟩ =
        some (-1, done.flatMap Piece.data) := by
  obtain ⟨pos, front, positive, inside, after, _, passes⟩ :=
    chunks_pass body marked fits first near done (piece :: later) parts small
  rw [List.flatMap_cons, List.append_assoc piece.encode] at after
  have here : Here (before ++ crlfcrlf ++ body.bytes) pos piece _ := ⟨inside, after⟩
  obtain ⟨failing, last, fails⟩ := piece_fails here fits large
  refine ⟨_, complete (before ++ crlfcrlf ++ body.bytes) (front ++ failing)
    (positive.append last), ?_⟩
  rw [List.append_assoc front, passes, fails]

include marked fits first in
theorem missed_varies (near : before.length + 4 ≤ 4096 + bufSize)
    (long : 4097 < before.length + 4)
    (begins : ∀ piece, body.pieces.head? = some piece → piece.data.length ≤ possible)
    (outcome : Int × List Byte) :
    ¬ ∀ plan, Fragments (before ++ crlfcrlf ++ body.bytes) plan →
      readHttpResponse ⟨before ++ crlfcrlf ++ body.bytes, plan⟩ = some outcome := by
  intro steady
  obtain ⟨plan, missing, failed⟩ := response_missed before body.bytes first long
  rw [steady plan missing, Option.some.injEq] at failed
  cases pieces : body.pieces with
  | nil =>
      obtain ⟨other, more, left, fragments, split, ran⟩ := chunked_passes body marked fits
        first near [] [] pieces (by simp)
      rw [steady other fragments, failed, (List.append_eq_nil_iff.mp split.symm).2] at ran
      cases ran
  | cons piece later =>
      have small : piece.data.length ≤ possible := begins piece (by rw [pieces]; rfl)
      obtain ⟨other, more, left, fragments, _, ran⟩ := chunked_passes body marked fits first
        near [piece] later pieces (by simpa using small)
      rw [steady other fragments, failed] at ran
      have nothing := congrArg Prod.snd (Option.some.inj ran)
      simp [piece.nonempty] at nothing

include marked fits first in
theorem undecided_varies (near : before.length + 4 ≤ 4096 + bufSize)
    (undecided : ¬ Decided body.pieces) (outcome : Int × List Byte) :
    ¬ ∀ plan, Fragments (before ++ crlfcrlf ++ body.bytes) plan →
      readHttpResponse ⟨before ++ crlfcrlf ++ body.bytes, plan⟩ = some outcome := by
  intro steady
  have limits : sure = 20478 ∧ possible = 40957 := ⟨rfl, rfl⟩
  simp only [Decided, not_forall] at undecided
  obtain ⟨piece, found, small⟩ := undecided
  obtain ⟨large, done, later, parts, sures⟩ := List.find?_eq_some_iff_append.mp found
  have within : ∀ piece ∈ done, piece.data.length ≤ possible := by
    intro other member
    have below := sures other member
    simp only [Bool.not_eq_eq_eq_not, Bool.not_true, decide_eq_false_iff_not] at below
    omega
  obtain ⟨plan, fragments, fails⟩ := chunked_fails body marked fits first near done
    later piece parts within (by simpa using large)
  obtain ⟨other, more, left, others, _, ran⟩ := chunked_passes body marked fits first
    near (done ++ [piece]) later (by rw [parts]; simp) (by
      intro next member
      rcases List.mem_append.mp member with inside | here
      · exact within next inside
      · rw [List.mem_singleton.mp here]
        omega)
  rw [steady plan fragments] at fails
  rw [steady other others, fails] at ran
  have same := congrArg Prod.snd (Option.some.inj ran)
  simp [piece.nonempty] at same

include marked fits first in
theorem large_fails (piece : Piece) (head : body.pieces.head? = some piece)
    (large : possible < piece.data.length) (plan : List Nat)
    (fragments : Fragments (before ++ crlfcrlf ++ body.bytes) plan) :
    readHttpResponse ⟨before ++ crlfcrlf ++ body.bytes, plan⟩ = some (-1, []) := by
  rcases chunked_any body marked fits first plan fragments with
    ⟨missed, _⟩ | ⟨_, done, rest, parts, within, _, ran⟩
  · exact missed
  · cases done with
    | nil =>
        have nonempty : rest ≠ [] := by
          rintro rfl
          rw [parts] at head
          cases head
        rw [ran, if_neg nonempty, List.flatMap_nil]
    | cons next done =>
        rw [parts, List.cons_append, List.head?_cons, Option.some.injEq] at head
        have small := within next (by simp)
        rw [head] at small
        omega

include marked fits first in
theorem chunked_steady :
    (∃ outcome, ∀ plan, Fragments (before ++ crlfcrlf ++ body.bytes) plan →
        readHttpResponse ⟨before ++ crlfcrlf ++ body.bytes, plan⟩ = some outcome) ↔
      ChunksSteady (before.length + 4) body.pieces := by
  constructor
  · rintro ⟨outcome, steady⟩
    by_contra varies
    simp only [ChunksSteady, not_or, not_exists, not_and, not_lt] at varies
    obtain ⟨near, begins, partly⟩ := varies
    by_cases decided : Decided body.pieces
    · have long : 4097 < before.length + 4 := by
        by_contra short
        exact partly (by omega) decided
      exact missed_varies body marked fits first near long begins outcome steady
    · exact undecided_varies body marked fits first near decided outcome steady
  · rintro (never | ⟨piece, head, large⟩ | ⟨short, decided⟩)
    · refine ⟨(-1, []), ?_⟩
      intro plan fragments
      rcases chunked_any body marked fits first plan fragments with ⟨missed, _⟩ | ⟨near, _⟩
      · exact missed
      · omega
    · exact ⟨(-1, []), large_fails body marked fits first piece head large⟩
    · refine ⟨(if body.pieces.drop (body.pieces.takeWhile fun piece =>
        piece.data.length ≤ sure).length = [] then 0 else -1,
          (body.pieces.takeWhile fun piece => piece.data.length ≤ sure).flatMap Piece.data), ?_⟩
      intro plan fragments
      rcases chunked_any body marked fits first plan fragments with
        ⟨_, long⟩ | ⟨_, done, rest, parts, within, stops, ran⟩
      · omega
      · rw [parts] at decided ⊢
        rw [ran, ← decided.parts within stops, List.drop_left]

end Chunked

theorem unsized_fails {before content : List Byte}
    (unmarked : ¬ chunkedMark <:+: before ++ crlfcrlf)
    (unsized : ¬ lengthMark <:+: before ++ crlfcrlf)
    (first : ∀ left right, before ++ crlfcrlf = left ++ crlfcrlf ++ right → right = [])
    (plan : List Nat) (fragments : Fragments (before ++ crlfcrlf ++ content) plan) :
    readHttpResponse ⟨before ++ crlfcrlf ++ content, plan⟩ = some (-1, []) := by
  rcases header_any first plan fragments with
    ⟨missed, _⟩ | ⟨length, later, found, _, reaches, _, _⟩
  · simp only [readHttpResponse, missed]
  · have nowhere := mt (find_in_head before (content.take (length - (before.length + 4)))
      lengthMark (by decide) (by decide)).mp unsized
    rw [← come_in length reaches] at nowhere
    rw [unmarked_skips unmarked length later reaches plan found]
    unfold readHttpConten_Length
    cases pos : find ((before ++ crlfcrlf ++ content).take length) (text "Content-Length:") with
    | none => rfl
    | some pos' =>
        have behind : before.length + 4 ≤ pos' := by
          by_contra inside
          exact nowhere ⟨pos', pos, by omega⟩
        simp only [behind, ↓reduceIte]

/-- A response has one outcome exactly when no limit it meets depends on what has arrived. -/
theorem steady_iff (response : Response) : Steady response ↔ Insensitive response := by
  obtain ⟨before, first, body, fits⟩ := response
  cases body with
  | chunked marked body => exact chunked_steady body marked fits first
  | length unmarked field content counts => exact length_steady unmarked field counts fits first
  | other unmarked unsized content =>
      exact ⟨fun _ => trivial, fun _ => ⟨(-1, []), unsized_fails unmarked unsized first⟩⟩

def longField : Field (text "HTTP/1.1 200 OK\r\nContent-Length: 20481" ++ crlfcrlf) where
  before := text "HTTP/1.1 200 OK\r\n"
  tail := text " 20481\r\n\r\n"
  found := by decide
  written := ⟨50, by decide, by decide⟩

theorem longField_counts : atoi longField.tail ≤ (List.replicate 20481 (120 : Byte)).length := by
  rw [List.length_replicate]
  decide +kernel

def longContent : Response where
  before := text "HTTP/1.1 200 OK\r\nContent-Length: 20481"
  first := by
    have found : (text "HTTP/1.1 200 OK\r\nContent-Length: 20481" ++ crlfcrlf).dropInfix?
        crlfcrlf = some (text "HTTP/1.1 200 OK\r\nContent-Length: 20481", []) := by
      decide
    intro left right same
    have least := ((Occurrence.split_iff _ _ _ _).mp found).2 left right same
    have lengths := congrArg List.length same
    rw [List.length_append, List.length_append, List.length_append] at lengths
    exact List.length_eq_zero_iff.mp (by omega)
  body := .length (by decide) longField (List.replicate 20481 120) longField_counts
  fits := by
    have size : (text "HTTP/1.1 200 OK\r\nContent-Length: 20481" ++ crlfcrlf).length = 42 := by
      decide
    rw [List.length_append, size, Body.bytes, List.length_replicate]
    decide

/-- A content of a byte more than the buffer is read if some of it comes with the header, and
otherwise is too long. -/
theorem long_content_varies : ¬ Steady longContent := by
  intro steady
  have limits := (length_steady (by decide) longField longField_counts longContent.fits
    longContent.first).mp steady
  have value : atoi longField.tail = 20481 := by decide +kernel
  have size : (text "HTTP/1.1 200 OK\r\nContent-Length: 20481").length = 38 := by decide
  rw [LengthSteady, value, size, List.length_replicate, reach] at limits
  have buffer : bufSize = 20480 := rfl
  omega

end AsrServer.ResponseFragments
