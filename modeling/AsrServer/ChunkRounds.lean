import AsrServer.HttpResponse

/-!
`readHttpIs_Chunk` on a chunked body of which some has come in with the header. What a
round does depends on how far the string reaches beyond the size line: a chunk that is all
there is taken, one of which at most a buffer is missing is read, any other ends the
function. The string has `length` bytes of the response throughout.
-/

namespace AsrServer.ChunkRounds

open Bytes RequestHeader ChunkedContent HttpResponse

/-- A chunk under a line that the stream reads as its length; extensions may follow the
digits. -/
structure Piece where
  size : List Byte
  data : List Byte
  single : ¬ crlf <:+: size
  counts : hexSize size = data.length
  nonempty : data ≠ []

example : hexSize (text "1F;name=value") = 31 := by decide +kernel

def Piece.encode (piece : Piece) : List Byte := piece.size ++ crlf ++ piece.data ++ crlf

structure ChunkedBody where
  pieces : List Piece
  last : List Byte
  trailer : List Line
  single : ¬ crlf <:+: last
  zero : hexSize last = 0

def ChunkedBody.ending (body : ChunkedBody) : List Byte :=
  body.last ++ crlf ++ lines body.trailer ++ crlf

def ChunkedBody.bytes (body : ChunkedBody) : List Byte :=
  body.pieces.flatMap Piece.encode ++ body.ending

/-- The largest chunk that is read whatever has arrived of it. -/
def sure : Nat := bufSize - 2

/-- The largest chunk that is read if a `recv` brings all it can. -/
def possible : Nat := 2 * bufSize - 3

theorem Piece.encode_length (piece : Piece) :
    piece.encode.length = piece.size.length + 4 + piece.data.length := by
  simp only [Piece.encode, List.length_append, crlf_length]
  omega

def rounds (response : List Byte) (fuel pos length : Nat) (plan : List Nat)
    (result : List Byte) : Option (Int × List Byte) :=
  chunk_rounds fuel pos (response.take length) ⟨response.drop length, plan⟩ result

theorem toSsize_eq (value : Int) (low : -2 ^ 63 ≤ value) (high : value < 2 ^ 63) :
    toSsize value = value := by
  unfold toSsize
  exact Int.bmod_eq_of_le (by omega) (by omega)

/-! Where the parts of a chunk are. -/

structure Here (response : List Byte) (pos : Nat) (piece : Piece) (after : List Byte) : Prop where
  inside : pos ≤ response.length
  bytes : response.drop pos = piece.encode ++ after

theorem Here.length {response after : List Byte} {pos : Nat} {piece : Piece}
    (here : Here response pos piece after) :
    pos + piece.encode.length + after.length = response.length := by
  have inside := here.inside
  have lengths := congrArg List.length here.bytes
  rw [List.length_drop, List.length_append] at lengths
  omega

theorem Here.line {response after : List Byte} {pos : Nat} {piece : Piece}
    (here : Here response pos piece after) :
    (response.drop pos).dropInfix? crlf =
      some (piece.size, piece.data ++ crlf ++ after) := by
  rw [← line_first piece.size _ piece.single, here.bytes]
  simp [Piece.encode]

theorem Here.size {response after : List Byte} {pos length : Nat} {piece : Piece}
    (here : Here response pos piece after) (there : pos + piece.size.length ≤ length) :
    ((response.take length).drop pos).take (pos + piece.size.length - pos) = piece.size := by
  rw [List.drop_take, List.take_take, here.bytes, Nat.add_sub_cancel_left,
    Nat.min_eq_left (by omega), Piece.encode]
  simp only [List.append_assoc]
  exact List.take_left

theorem Here.data {response after : List Byte} {pos length : Nat} {piece : Piece}
    (here : Here response pos piece after)
    (there : pos + piece.encode.length ≤ length) :
    ((response.take length).drop (pos + piece.size.length + 2)).take piece.data.length =
      piece.data := by
  have size := piece.encode_length
  have cells : piece.encode ++ after =
      (piece.size ++ crlf) ++ (piece.data ++ (crlf ++ after)) := by
    simp [Piece.encode]
  have count : piece.size.length + 2 = (piece.size ++ crlf).length := by simp
  rw [List.drop_take, List.take_take, Nat.min_eq_left (by omega), Nat.add_assoc,
    ← List.drop_drop, here.bytes, cells, count, List.drop_left, List.take_left]

/-! A round whose size line has been found, with `length` bytes there by then. -/

section Found

variable {response after : List Byte} {pos : Nat} {piece : Piece}
  (here : Here response pos piece after) (fits : response.length < 2 ^ 63)
  {start length : Nat} {plan later : List Nat}
  (found : find_loop crlf pos (response.take start) (response.drop start) plan =
    some (pos + piece.size.length, response.take length, ⟨response.drop length, later⟩))
  (behind : pos + piece.size.length + 2 ≤ length) (inside : length ≤ response.length)

include here fits found behind inside

theorem round_found (fuel : Nat) (result : List Byte) :
    rounds response (fuel + 1) pos start plan result =
      if (0 : Int) < pos + piece.encode.length - length then
        if (bufSize : Int) < pos + piece.encode.length - length then some (-1, result)
        else
          (read_nReal_timeout ((pos + piece.encode.length - length : Int).toNat)
            (response.drop length) later).elim (some (-1, result)) fun read =>
              chunk_rounds fuel (pos + piece.encode.length) (response.take length ++ read.1) read.2
                (result ++ ((response.take length ++ read.1).drop
                  (pos + piece.size.length + 2)).take piece.data.length)
      else
        chunk_rounds fuel (pos + piece.encode.length) (response.take length)
          ⟨response.drop length, later⟩
          (result ++ ((response.take length).drop (pos + piece.size.length + 2)).take
            piece.data.length) := by
  have total := here.length
  have encoded := piece.encode_length
  have size : hexSize (((response.take length).drop pos).take
      (pos + piece.size.length - pos)) = piece.data.length := by
    rw [here.size (by omega), piece.counts]
  have present : ¬ piece.data.length = 0 := by
    have positive := List.length_pos_iff.mpr piece.nonempty
    omega
  -- The position stays inside the response, so nothing wraps.
  have pos_num : (pos + piece.size.length + 4 + piece.data.length) % 2 ^ 64 =
      pos + piece.encode.length := by
    rw [Nat.mod_eq_of_lt (by omega)]
    omega
  have counted : (response.take length).length = length := List.length_take_of_le inside
  have remain : toSsize (((pos + piece.encode.length : Nat) : Int) - length) =
      pos + piece.encode.length - length := by
    rw [toSsize_eq _ (by omega) (by omega)]
    omega
  simp only [rounds, chunk_rounds, found, size, present, ↓reduceIte, pos_num, counted, remain]
  cases read_nReal_timeout (pos + piece.encode.length - length : Int).toNat
    (response.drop length) later with
  | none => rfl
  | some read => rfl

theorem round_fails (fuel : Nat) (result : List Byte)
    (far : length + bufSize < pos + piece.encode.length) :
    rounds response (fuel + 1) pos start plan result = some (-1, result) := by
  rw [round_found here fits found behind inside, if_pos (by omega), if_pos (by omega)]

theorem round_takes (fuel : Nat) (result : List Byte)
    (there : pos + piece.encode.length ≤ length) :
    rounds response (fuel + 1) pos start plan result =
      rounds response fuel (pos + piece.encode.length) length later (result ++ piece.data) := by
  rw [round_found here fits found behind inside, if_neg (by omega), here.data there]
  rfl

theorem round_reads (fuel : Nat) (result : List Byte) (rest : List Nat)
    (missing : length < pos + piece.encode.length)
    (near : pos + piece.encode.length ≤ length + bufSize)
    (read : read_nReal_timeout (pos + piece.encode.length - length) (response.drop length) later =
      some ((response.drop length).take (pos + piece.encode.length - length),
        ⟨response.drop (pos + piece.encode.length), rest⟩)) :
    rounds response (fuel + 1) pos start plan result =
      rounds response fuel (pos + piece.encode.length) (pos + piece.encode.length) rest
        (result ++ piece.data) := by
  have total := here.length
  have remain : (pos + piece.encode.length - length : Int).toNat =
      pos + piece.encode.length - length := by omega
  have joined : response.take length ++
      (response.drop length).take (pos + piece.encode.length - length) =
      response.take (pos + piece.encode.length) := by
    rw [← List.take_add]
    congr 1
    omega
  rw [round_found here fits found behind inside, if_pos (by omega), if_neg (by omega), remain,
    read]
  simp only [joined, Option.elim_some]
  rw [here.data (Nat.le_refl _)]
  rfl

end Found

/-! Every plan. -/

/-- The state of the loop at the start of a round: less than a buffer has come in beyond
the chunks that are done. -/
structure Round (response : List Byte) (pos length : Nat) (plan : List Nat) : Prop where
  fragments : Fragments (response.drop length) plan
  behind : pos ≤ length
  ahead : length < pos + bufSize
  inside : length ≤ response.length

theorem Round.finds {response after : List Byte} {pos length : Nat} {plan : List Nat}
    {before : List Byte} (round : Round response pos length plan) (pattern : List Byte)
    (occurs : (response.drop pos).dropInfix? pattern = some (before, after)) :
    ∃ further later, find_loop pattern pos (response.take length) (response.drop length) plan =
        some (pos + before.length, response.take further, ⟨response.drop further, later⟩) ∧
      Fragments (response.drop further) later ∧ further ≤ response.length ∧
      pos + before.length + pattern.length ≤ further ∧
      (further = length ∨ further < pos + before.length + pattern.length + bufSize) := by
  have counted : (response.take length).length = length := List.length_take_of_le round.inside
  have reading : Reading response (response.take length) ⟨response.drop length, plan⟩ :=
    ⟨List.take_append_drop _ _, round.fragments⟩
  obtain ⟨last, stream, found, after, reaches, bound⟩ := find_loop_finds pattern response before
    after pos occurs plan _ _ reading (by have := round.behind; omega)
  obtain ⟨front, rest⟩ := after.shape
  have whole := congrArg List.length after.whole
  rw [List.length_append] at whole
  refine ⟨last.length, stream.plan, ?_, ?_, by omega, reaches, by omega⟩
  · rw [found, ← front, ← rest]
  · have fragments := after.fragments
    rw [rest] at fragments
    exact fragments

theorem Round.piece {response after : List Byte} {pos length : Nat} {plan : List Nat}
    {piece : Piece} (round : Round response pos length plan)
    (here : Here response pos piece after) (fits : response.length < 2 ^ 63) (fuel : Nat)
    (result : List Byte) :
    (rounds response (fuel + 1) pos length plan result = some (-1, result) ∧
        sure < piece.data.length) ∨
      (piece.data.length ≤ possible ∧ ∃ further later,
        Round response (pos + piece.encode.length) further later ∧
        rounds response (fuel + 1) pos length plan result =
          rounds response fuel (pos + piece.encode.length) further later
            (result ++ piece.data)) := by
  obtain ⟨further, later, found, fragments, inside, reaches, bound⟩ := round.finds crlf here.line
  have total := here.length
  have encoded := piece.encode_length
  have ahead := round.ahead
  have buffer : bufSize = 20480 := rfl
  have limits : sure = 20478 ∧ possible = 40957 := ⟨rfl, rfl⟩
  rw [crlf_length] at reaches bound
  -- All of the chunk is in the string, or one buffer brings the rest, or it is too far off.
  by_cases there : pos + piece.encode.length ≤ further
  · right
    refine ⟨by omega, further, later, ⟨fragments, there, by omega, inside⟩, ?_⟩
    exact round_takes here fits found reaches inside fuel result there
  · by_cases near : pos + piece.encode.length ≤ further + bufSize
    · right
      have reading : Reading response (response.take further) ⟨response.drop further, later⟩ :=
        ⟨List.take_append_drop _ _, fragments⟩
      obtain ⟨stream, read, after⟩ := read_nReal_reads response later
        (pos + piece.encode.length - further) _ _ reading (by rw [List.length_drop]; omega)
      have joined : (response.take further ++
          (response.drop further).take (pos + piece.encode.length - further)).length =
          pos + piece.encode.length := by
        simp only [List.length_append, List.length_take, List.length_drop]
        omega
      obtain ⟨_, rest⟩ := after.shape
      rw [joined] at rest
      rw [rest] at read
      refine ⟨by omega, pos + piece.encode.length, stream.plan, ⟨?_, by omega, by omega, by omega⟩,
        ?_⟩
      · have fragments := after.fragments
        rw [rest] at fragments
        exact fragments
      · exact round_reads here fits found reaches inside fuel result stream.plan (by omega) near
          read
    · left
      exact ⟨round_fails here fits found reaches inside fuel result (by omega), by omega⟩

theorem Round.last {response : List Byte} {pos length : Nat} {plan : List Nat}
    (round : Round response pos length plan) (body : ChunkedBody)
    (ends : response.drop pos = body.ending) (fuel : Nat) (result : List Byte) :
    rounds response (fuel + 1) pos length plan result = some (0, result) := by
  have line := line_first body.last (lines body.trailer ++ crlf) body.single
  rw [← List.append_assoc] at line
  change body.ending.dropInfix? crlf = _ at line
  rw [← ends] at line
  obtain ⟨further, later, found, fragments, inside, reaches, bound⟩ := round.finds crlf line
  rw [crlf_length] at reaches
  have size : hexSize (((response.take further).drop pos).take (pos + body.last.length - pos)) =
      0 := by
    rw [List.drop_take, List.take_take, ends, Nat.add_sub_cancel_left, Nat.min_eq_left (by omega),
      ChunkedBody.ending]
    simp only [List.append_assoc]
    rw [List.take_left]
    exact body.zero
  -- The line's own end may be the first half of the pattern.
  obtain ⟨before, finish⟩ := trailer_ends [] body.trailer (by decide)
  rw [List.nil_append] at finish
  have rest : response.drop (pos + body.last.length) = crlf ++ lines body.trailer ++ crlf := by
    rw [← List.drop_drop, ends, ChunkedBody.ending]
    simp only [List.append_assoc]
    exact List.drop_left
  rw [← rest] at finish
  have counted : (response.take further).length = further := List.length_take_of_le inside
  have reading : Reading response (response.take further) ⟨response.drop further, later⟩ :=
    ⟨List.take_append_drop _ _, fragments⟩
  obtain ⟨_, _, ran, _, _, _⟩ := find_loop_finds crlfcrlf response before [] _ finish later _ _
    reading (by omega)
  simp only [rounds, chunk_rounds, found, size, ↓reduceIte, ran]

/-- Under every plan some of the chunks are taken; the next one, if any, may be too large. -/
theorem rounds_stop (body : ChunkedBody) (response : List Byte) (fits : response.length < 2 ^ 63)
    (todo : List Piece) (pos length fuel : Nat) (plan : List Nat) (result : List Byte)
    (round : Round response pos length plan) (inside : pos ≤ response.length)
    (bytes : response.drop pos = todo.flatMap Piece.encode ++ body.ending)
    (enough : todo.length < fuel) :
    ∃ done rest, todo = done ++ rest ∧ (∀ piece ∈ done, piece.data.length ≤ possible) ∧
      (∀ piece, rest.head? = some piece → sure < piece.data.length) ∧
      rounds response fuel pos length plan result =
        some (if rest = [] then 0 else -1, result ++ done.flatMap Piece.data) := by
  obtain ⟨fuel, rfl⟩ : ∃ less, fuel = less + 1 := ⟨fuel - 1, by omega⟩
  -- On the chunks still to come, of which there are fewer than the fuel.
  induction todo generalizing pos length fuel plan result with
  | nil =>
      refine ⟨[], [], rfl, by simp, by simp, ?_⟩
      rw [round.last body (by simpa using bytes)]
      simp
  | cons piece todo ih =>
      rw [List.flatMap_cons, List.append_assoc] at bytes
      have here : Here response pos piece (todo.flatMap Piece.encode ++ body.ending) :=
        ⟨inside, bytes⟩
      have total := here.length
      rw [List.length_cons] at enough
      rcases round.piece here fits fuel result with
        ⟨fails, large⟩ | ⟨small, further, later, next, goes⟩
      · refine ⟨[], piece :: todo, rfl, by simp, ?_, by simp [fails]⟩
        intro first head
        cases head
        exact large
      · obtain ⟨less, rfl⟩ : ∃ less, fuel = less + 1 := ⟨fuel - 1, by omega⟩
        have after : response.drop (pos + piece.encode.length) =
            todo.flatMap Piece.encode ++ body.ending := by
          rw [← List.drop_drop, bytes, List.drop_left]
        obtain ⟨done, rest, parts, within, stops, ran⟩ :=
          ih _ _ _ (result ++ piece.data) next (by omega) after less (by omega)
        refine ⟨piece :: done, rest, by rw [parts]; rfl, ?_, stops, ?_⟩
        · intro other member
          rcases List.mem_cons.mp member with rfl | later
          · exact small
          · exact within other later
        · rw [goes, ran]
          simp

/-- The first chunk that is not taken under every plan is taken under none. -/
def Decided (pieces : List Piece) : Prop :=
  ∀ piece, pieces.find? (fun piece => sure < piece.data.length) = some piece →
    possible < piece.data.length

theorem Decided.parts {done rest : List Piece} (decided : Decided (done ++ rest))
    (within : ∀ piece ∈ done, piece.data.length ≤ possible)
    (stops : ∀ piece, rest.head? = some piece → sure < piece.data.length) :
    done = (done ++ rest).takeWhile fun piece => piece.data.length ≤ sure := by
  -- The first chunk that is not sure is never taken, so none of those before it can be that one.
  have all : ∀ piece ∈ done, decide (piece.data.length ≤ sure) = true := by
    intro piece member
    by_contra large
    cases found : (done ++ rest).find? fun piece => sure < piece.data.length with
    | none =>
        have small := List.find?_eq_none.mp found piece (List.mem_append_left _ member)
        simp at small large
        omega
    | some first =>
        have never := decided first found
        cases inner : done.find? fun piece => sure < piece.data.length with
        | none =>
            have small := List.find?_eq_none.mp inner piece member
            simp at small large
            omega
        | some other =>
            have same : other = first := by
              rw [List.find?_append, inner] at found
              exact Option.some.inj found
            have small := within other (List.mem_of_find?_eq_some inner)
            rw [same] at small
            omega
  have empty : rest.takeWhile (fun piece => decide (piece.data.length ≤ sure)) = [] := by
    cases rest with
    | nil => rfl
    | cons first later =>
        have large := stops first rfl
        rw [List.takeWhile_cons_of_neg (by simpa using large)]
  rw [List.takeWhile_append_of_pos all, empty, List.append_nil]

/-! Plans that make a chunk pass, or fail. A front that is to be followed by more. -/

def Positive (front : List Nat) : Prop := ∀ size ∈ front, 0 < size

theorem Positive.append {front more : List Nat} (left : Positive front) (right : Positive more) :
    Positive (front ++ more) := by
  intro size member
  rcases List.mem_append.mp member with here | there
  · exact left size here
  · exact right size there

theorem positive_stops (ones last : Nat) (positive : 0 < last) :
    Positive (List.replicate ones 1 ++ [last]) := by
  intro size member
  rcases List.mem_append.mp member with one | here
  · rw [(List.mem_replicate.mp one).2]
    decide
  · rw [List.mem_singleton.mp here]
    exact positive

theorem piece_passes {response after : List Byte} {pos : Nat} {piece : Piece}
    (here : Here response pos piece after) (fits : response.length < 2 ^ 63)
    (small : piece.data.length ≤ possible) :
    ∃ front, Positive front ∧ ∀ fuel more result,
      rounds response (fuel + 1) pos pos (front ++ more) result =
        rounds response fuel (pos + piece.encode.length) (pos + piece.encode.length) more
          (result ++ piece.data) := by
  have total := here.length
  have encoded := piece.encode_length
  have buffer : bufSize = 20480 := rfl
  have limit : possible = 40957 := rfl
  by_cases all : pos + piece.encode.length ≤ pos + (piece.size.length + 1) + bufSize
  · -- One `recv` brings the line's last byte and the rest of the chunk.
    refine ⟨_, positive_stops (piece.size.length + 1)
      (pos + piece.encode.length - (pos + (piece.size.length + 1))) (by omega), ?_⟩
    intro fuel more result
    have found := find_loop_stops crlf response _ _ pos pos (pos + piece.encode.length) more
      (piece.size.length + 1) here.line (Nat.le_refl pos) (by rw [crlf_length]; omega) (by omega)
      (by omega) all
    rw [List.append_assoc]
    exact round_takes here fits found (by omega) (by omega) fuel result (Nat.le_refl _)
  · -- It brings a buffer, and a second one what is missing.
    have line := positive_stops (piece.size.length + 1)
      (pos + (piece.size.length + 1) + bufSize - (pos + (piece.size.length + 1))) (by omega)
    have rest : Positive [pos + piece.encode.length -
        (pos + (piece.size.length + 1) + bufSize)] := by
      intro size member
      rw [List.mem_singleton.mp member]
      omega
    refine ⟨_, line.append rest, ?_⟩
    intro fuel more result
    have found := find_loop_stops crlf response _ _ pos pos
      (pos + (piece.size.length + 1) + bufSize)
      ([pos + piece.encode.length - (pos + (piece.size.length + 1) + bufSize)] ++ more)
      (piece.size.length + 1) here.line (Nat.le_refl pos) (by rw [crlf_length]; omega) (by omega)
      (by omega) (Nat.le_refl _)
    have read := read_nReal_stops response (pos + (piece.size.length + 1) + bufSize)
      (pos + piece.encode.length - (pos + (piece.size.length + 1) + bufSize)) more (by omega)
      (by omega)
    have arrive : pos + (piece.size.length + 1) + bufSize +
        (pos + piece.encode.length - (pos + (piece.size.length + 1) + bufSize)) =
        pos + piece.encode.length := by omega
    rw [arrive] at read
    rw [List.append_assoc, List.append_assoc]
    exact round_reads here fits found (by omega) (by omega) fuel result more (by omega) (by omega)
      read

theorem piece_fails {response after : List Byte} {pos : Nat} {piece : Piece}
    (here : Here response pos piece after) (fits : response.length < 2 ^ 63)
    (large : sure < piece.data.length) :
    ∃ front, Positive front ∧ ∀ fuel more result,
      rounds response (fuel + 1) pos pos (front ++ more) result = some (-1, result) := by
  have total := here.length
  have encoded := piece.encode_length
  have buffer : bufSize = 20480 := rfl
  have limit : sure = 20478 := rfl
  refine ⟨_, positive_stops (piece.size.length + 1)
    (pos + piece.size.length + 2 - (pos + (piece.size.length + 1))) (by omega), ?_⟩
  intro fuel more result
  have found := find_loop_stops crlf response _ _ pos pos (pos + piece.size.length + 2) more
    (piece.size.length + 1) here.line (Nat.le_refl pos) (by rw [crlf_length]; omega) (by omega)
    (by omega) (by omega)
  rw [List.append_assoc]
  exact round_fails here fits found (Nat.le_refl _) (by omega) fuel result (by omega)

theorem pieces_pass (response : List Byte) (fits : response.length < 2 ^ 63) (done : List Piece)
    (after : List Byte) (pos : Nat) (inside : pos ≤ response.length)
    (bytes : response.drop pos = done.flatMap Piece.encode ++ after)
    (small : ∀ piece ∈ done, piece.data.length ≤ possible) :
    ∃ front, Positive front ∧ ∀ fuel more result,
      rounds response (fuel + done.length) pos pos (front ++ more) result =
        rounds response fuel (pos + (done.flatMap Piece.encode).length)
          (pos + (done.flatMap Piece.encode).length) more
          (result ++ done.flatMap Piece.data) := by
  induction done generalizing pos with
  | nil => exact ⟨[], by simp [Positive], by simp⟩
  | cons piece done ih =>
      rw [List.flatMap_cons, List.append_assoc] at bytes
      have here : Here response pos piece (done.flatMap Piece.encode ++ after) := ⟨inside, bytes⟩
      have total := here.length
      have further : response.drop (pos + piece.encode.length) =
          done.flatMap Piece.encode ++ after := by
        rw [← List.drop_drop, bytes, List.drop_left]
      obtain ⟨first, positive, passes⟩ := piece_passes here fits (small piece (by simp))
      obtain ⟨others, rest, run⟩ := ih (pos + piece.encode.length) (by omega) further
        fun other member => small other (List.mem_cons_of_mem _ member)
      refine ⟨first ++ others, positive.append rest, ?_⟩
      intro fuel more result
      rw [List.append_assoc, List.length_cons, ← Nat.add_assoc, passes, run, List.flatMap_cons,
        List.flatMap_cons, List.length_append, List.append_assoc, Nat.add_assoc]

end AsrServer.ChunkRounds
