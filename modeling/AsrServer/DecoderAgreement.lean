import AsrServer.HttpHeader

/-!
The client's two decoders of a response: `readHttpResponse`, which reads a socket until it has
all of it, and `ParseHttpHeader` with `ParseHttpContentChunk` or `ParseHttpContentLength`, which
are called on what has come in. Their limits differ, so one of them may give up where the other
does not; what both accept is the same.
-/

namespace AsrServer.DecoderAgreement

open Bytes HttpResponse ResponseFragments HttpHeader ChunkedContent ChunkRounds

theorem pieces_of (chunks : List Chunk) (small : (chunks.flatMap Chunk.encode).length < 2 ^ 64) :
    ∃ pieces : List Piece, pieces.flatMap Piece.encode = chunks.flatMap Chunk.encode ∧
      pieces.flatMap Piece.data = chunks.flatMap Chunk.data := by
  induction chunks with
  | nil => exact ⟨[], rfl, rfl⟩
  | cons chunk chunks ih =>
      rw [List.flatMap_cons, List.length_append] at small
      obtain ⟨pieces, encoded, data⟩ := ih (by omega)
      have inside : hexValue chunk.size < 2 ^ 64 := by
        simp only [Chunk.encode, List.length_append] at small
        rw [chunk.counts]
        omega
      have counts : hexSize chunk.size = chunk.data.length := by
        rw [hexSize_digits chunk.size chunk.digits inside, chunk.counts]
      refine ⟨⟨chunk.size, chunk.data, chunk.size_single, counts, chunk.nonempty⟩ :: pieces, ?_, ?_⟩
      · rw [List.flatMap_cons, List.flatMap_cons, encoded]
        rfl
      · rw [List.flatMap_cons, List.flatMap_cons, data]

theorem body_of (message : Message) (small : message.encode.length < 2 ^ 64) :
    ∃ body : ChunkedBody, body.bytes = message.encode ∧
      body.pieces.flatMap Piece.data = message.content := by
  rw [Message.encode, List.length_append] at small
  obtain ⟨pieces, encoded, data⟩ := pieces_of message.chunks (by omega)
  refine ⟨⟨pieces, message.zero, message.trailer, message.zero_single, last_size message⟩, ?_,
    data⟩
  rw [ChunkedBody.bytes, encoded]
  rfl

inductive Announced (head : List Byte) where
  | chunked (marked : chunkedMark <:+: head) (message : Message)
  | length (unmarked : ¬ chunkedMark <:+: head) (field : Field head) (content : List Byte)
      (counts : atoi field.tail = content.length)

def Announced.bytes {head : List Byte} : Announced head → List Byte
  | .chunked _ message => message.encode
  | .length _ _ content _ => content

/-- The second decoder on the body: however it is cut, all calls but the last ask for more and
the last has the result. -/
def Announced.Decodes {head : List Byte} (result : List Byte) : Announced head → Prop
  | .chunked _ message => ∀ pieces, pieces.flatten = message.encode → ∃ left,
      receive [] [] pieces = some (expected message.encode.length pieces, left, result)
  | .length _ field content _ => result = content ∧ ∀ input rest, input ++ rest = content →
      ParseHttpContentLength input (atoi field.tail) = if rest = [] then 0 else 1

def Announced.size {head : List Byte} : Announced head → Int
  | .chunked _ _ => -1
  | .length _ field _ _ => atoi field.tail

section Agreement

variable {before : List Byte}
  (first : ∀ left right, before ++ crlfcrlf = left ++ crlfcrlf ++ right → right = [])

include first in
theorem head_found (body : List Byte) :
    (before ++ crlfcrlf ++ body).dropInfix? crlfcrlf = some (before, body) :=
  Occurrence.split_of_first crlfcrlf before body first

theorem received_all (message : Message) (fits : message.encode.length < 2 ^ 63)
    (pieces : List (List Byte)) (cut : pieces.flatten = message.encode) :
    ∃ left, receive [] [] pieces =
      some (expected message.encode.length pieces, left, message.content) := by
  have called : pieces ≠ [] := by
    rintro rfl
    have nothing := congrArg List.length cut
    simp [Message.encode, Message.last] at nothing
  obtain ⟨left, got, ran, content⟩ := receive_pieces message pieces message.chunks [] [] []
    (by rw [List.nil_append, List.append_nil]; exact cut) fits called
  rw [List.append_nil, cut, content rfl] at ran
  exact ⟨left, ran⟩

include first in
theorem chunked_accepted (marked : chunkedMark <:+: before ++ crlfcrlf) (message : Message)
    (fits : (before ++ crlfcrlf ++ message.encode).length < 2 ^ 63) (plan : List Nat)
    (fragments : Fragments (before ++ crlfcrlf ++ message.encode) plan) (result : List Byte)
    (accepted : readHttpResponse ⟨before ++ crlfcrlf ++ message.encode, plan⟩ =
      some (0, result)) : result = message.content := by
  obtain ⟨body, bytes, data⟩ := body_of message (by
    simp only [List.length_append] at fits
    omega)
  rw [← bytes] at fits fragments accepted
  rcases chunked_any body marked fits first plan fragments with
    ⟨missed, _⟩ | ⟨_, done, rest, parts, _, _, ran⟩
  · rw [missed] at accepted
    cases accepted
  · rw [ran] at accepted
    by_cases whole : rest = []
    · rw [if_pos whole] at accepted
      cases accepted
      rw [← data, parts, whole, List.append_nil]
    · rw [if_neg whole] at accepted
      cases accepted

include first in
theorem length_accepted (unmarked : ¬ chunkedMark <:+: before ++ crlfcrlf)
    (field : Field (before ++ crlfcrlf)) (content : List Byte)
    (counts : atoi field.tail = content.length)
    (fits : (before ++ crlfcrlf ++ content).length < 2 ^ 63) (plan : List Nat)
    (fragments : Fragments (before ++ crlfcrlf ++ content) plan) (result : List Byte)
    (accepted : readHttpResponse ⟨before ++ crlfcrlf ++ content, plan⟩ = some (0, result)) :
    result = content := by
  rcases length_any unmarked field counts.le fits first plan fragments with
    ⟨missed, _⟩ | ⟨beyond, _, _, ran⟩
  · rw [missed] at accepted
    cases accepted
  · rw [ran, lengthOutcome] at accepted
    split at accepted
    · cases accepted
    · cases accepted
      rw [counts, Int.toNat_natCast, List.take_length]

include first in
/-- What the socket's reader accepts the other decoder gives as well, in whatever pieces it comes,
unless it turns the header away as too long. -/
theorem decoders_agree (announced : Announced (before ++ crlfcrlf))
    (fits : (before ++ crlfcrlf ++ announced.bytes).length < 2 ^ 63) (plan : List Nat)
    (fragments : Fragments (before ++ crlfcrlf ++ announced.bytes) plan) (result : List Byte)
    (accepted : readHttpResponse ⟨before ++ crlfcrlf ++ announced.bytes, plan⟩ =
      some (0, result)) :
    announced.Decodes result ∧
      ParseHttpHeader (before ++ crlfcrlf ++ announced.bytes) =
        if 10240 < before.length + 4 then (-1, before ++ crlfcrlf ++ announced.bytes, -1)
        else (0, announced.bytes, announced.size) := by
  have parsed := parse_head _ before announced.bytes (head_found first announced.bytes)
  cases announced with
  | chunked marked message =>
      have same := chunked_accepted first marked message fits plan fragments result accepted
      subst same
      simp only [Announced.bytes, List.length_append] at fits
      refine ⟨fun pieces cut => received_all message (by omega) pieces cut, ?_⟩
      rw [parsed, if_pos marked]
      rfl
  | length unmarked field content counts =>
      have same := length_accepted first unmarked field content counts fits plan fragments result
        accepted
      subst same
      refine ⟨⟨rfl, ?_⟩, ?_⟩
      · intro input rest cut
        have lengths := congrArg List.length cut
        rw [List.length_append] at lengths
        unfold ParseHttpContentLength
        rw [counts, Int.toNat_natCast, if_neg (by omega)]
        by_cases whole : rest = []
        · rw [whole, List.length_nil] at lengths
          rw [if_neg (by omega), if_neg (by omega), if_pos whole]
        · have missing := List.length_pos_iff.mpr whole
          rw [if_pos (by omega), if_neg whole]
      · rw [parsed, if_neg unmarked, field.found]
        simp only [field.value, counts, Announced.bytes, Announced.size]
        rw [if_neg (by omega : ¬ (result.length : Int) < 0)]

end Agreement

theorem ends_first (before : List Byte)
    (found : (before ++ crlfcrlf).dropInfix? crlfcrlf = some (before, [])) (left right : List Byte)
    (same : before ++ crlfcrlf = left ++ crlfcrlf ++ right) : right = [] := by
  have least := ((Occurrence.split_iff _ _ _ _).mp found).2 left right same
  have lengths := congrArg List.length same
  rw [List.length_append, List.length_append, List.length_append] at lengths
  exact List.length_eq_zero_iff.mp (by omega)

theorem decoders_agree_sample :
    readHttpResponse ⟨text "HTTP/1.1 200 OK\r\nTransfer-Encoding: chunked" ++ crlfcrlf ++
        sample.encode, List.replicate 70 1⟩ = some (0, text "a\r\n") ∧
      (∃ left, receive [] [] [text "0", text "3\r\na\r", text "\n\r\n0\r\nX: 1\r\n\r",
        text "\n"] = some ([1, 1, 1, 0], left, text "a\r\n")) ∧
      ParseHttpHeader (text "HTTP/1.1 200 OK\r\nTransfer-Encoding: chunked" ++ crlfcrlf ++
        sample.encode) = (0, sample.encode, -1) := by
  have read : readHttpResponse ⟨text "HTTP/1.1 200 OK\r\nTransfer-Encoding: chunked" ++ crlfcrlf ++
      sample.encode, List.replicate 70 1⟩ = some (0, text "a\r\n") := by decide +kernel
  obtain ⟨decodes, parsed⟩ := decoders_agree (ends_first _ (by decide))
    (.chunked (by decide) sample) (by decide) (List.replicate 70 1)
    ⟨fun size member => by rw [List.eq_of_mem_replicate member]; decide, by decide⟩
    (text "a\r\n") read
  obtain ⟨left, received⟩ := decodes
    [text "0", text "3\r\na\r", text "\n\r\n0\r\nX: 1\r\n\r", text "\n"] (by decide)
  have codes : expected sample.encode.length
      [text "0", text "3\r\na\r", text "\n\r\n0\r\nX: 1\r\n\r", text "\n"] = [1, 1, 1, 0] := by
    decide
  rw [codes] at received
  rw [if_neg (by decide)] at parsed
  exact ⟨read, ⟨left, received⟩, parsed⟩

end AsrServer.DecoderAgreement
