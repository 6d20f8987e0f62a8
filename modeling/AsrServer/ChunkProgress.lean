import AsrServer.ChunkRounds
import AsrServer.Machine

/-!
The rounds of the two chunk loops. The next position is computed modulo 2^64 and compared
with the size of the string only afterwards. A size that the peer chooses near 2^64 takes
it to 0 in `ParseHttpContentChunk`, which then goes round on the same input for ever, and
back to the size line or further in `readHttpIs_Chunk`.
-/

namespace AsrServer.ChunkProgress

open Bytes ChunkedContent HttpResponse Machine

/-! `ParseHttpContentChunk`: `input` and `result`. -/

def parse_round (now : List Byte × List Byte) : Option (List Byte × List Byte) :=
  match find now.1 crlf with
  | none => none
  | some pos_chunk_start =>
      let chunk_size := hexSize (now.1.take pos_chunk_start)
      if chunk_size = 0 then none
      else
        let pos_num := (pos_chunk_start + 4 + chunk_size) % 2 ^ 64
        if now.1.length < pos_num then none
        else
          some (now.1.drop pos_num,
            now.2 ++ (now.1.drop (pos_chunk_start + 2)).take chunk_size)

/-- What is returned where no round follows. -/
def parse_code (input : List Byte) : Int :=
  match find input crlf with
  | none => 1
  | some pos_chunk_start =>
      if hexSize (input.take pos_chunk_start) = 0 then
        if (find input crlfcrlf).isSome then 0 else 1
      else 1

/-- Every round takes something off `input`, and there is a last one. -/
structure Progresses (input result : List Byte) : Prop where
  shorter : ∀ now next, Run parse_round (input, result) now → parse_round now = some next →
    next.1.length < now.1.length
  ends : ∃ fuel outcome, chunk_loop fuel input result = some outcome

/-- The next position is 0: the size line and its number add up to a multiple of 2^64. -/
def Zeroed (input : List Byte) : Prop :=
  ∃ line after, input.dropInfix? crlf = some (line, after) ∧ hexSize line ≠ 0 ∧
    2 ^ 64 ∣ line.length + 4 + hexSize line

/-! `readHttpIs_Chunk`. -/

structure Reading where
  pos_num : Nat
  header : List Byte
  stream : Stream
  result : List Byte

def read_round (now : Reading) : Option Reading :=
  match find_loop crlf now.pos_num now.header now.stream.unread now.stream.plan with
  | none => none
  | some (pos_chunk_start, header, stream) =>
      let chunk_size := hexSize ((header.drop now.pos_num).take (pos_chunk_start - now.pos_num))
      if chunk_size = 0 then none
      else
        let pos_num : Nat := (pos_chunk_start + 4 + chunk_size) % 2 ^ 64
        let remain := toSsize (pos_num - header.length)
        if 0 < remain then
          if (bufSize : Int) < remain then none
          else
            (read_nReal_timeout remain.toNat stream.unread stream.plan).map fun read =>
              ⟨pos_num, header ++ read.1, read.2,
                now.result ++ ((header ++ read.1).drop (pos_chunk_start + 2)).take chunk_size⟩
        else
          some ⟨pos_num, header, stream,
            now.result ++ (header.drop (pos_chunk_start + 2)).take chunk_size⟩

def Advances (start : Reading) : Prop :=
  ∀ now next, Run read_round start now → read_round now = some next → now.pos_num < next.pos_num

/-- The size line has been found from the position on, and its number takes the position
beyond 2^64 by no more than where it was. -/
def Returns (now : Reading) : Prop :=
  ∃ pos header stream,
    find_loop crlf now.pos_num now.header now.stream.unread now.stream.plan =
      some (pos, header, stream) ∧
    let chunk_size := hexSize ((header.drop now.pos_num).take (pos - now.pos_num))
    2 ^ 64 ≤ pos + 4 + chunk_size ∧ chunk_size + (pos - now.pos_num) + 4 ≤ 2 ^ 64

/-! The rounds are those of the loops. -/

theorem chunk_loop_round (fuel : Nat) (input result : List Byte) :
    chunk_loop (fuel + 1) input result =
      (parse_round (input, result)).elim (some (parse_code input, input, result))
        fun next => chunk_loop fuel next.1 next.2 := by
  rw [chunk_loop, parse_round, parse_code]
  cases find input crlf with
  | none => rfl
  | some pos =>
      dsimp only
      split
      · cases find input crlfcrlf <;> rfl
      · split <;> rfl

theorem chunk_rounds_round (fuel : Nat) (now next : Reading) (moved : read_round now = some next) :
    chunk_rounds (fuel + 1) now.pos_num now.header now.stream now.result =
      chunk_rounds fuel next.pos_num next.header next.stream next.result := by
  rw [read_round] at moved
  rw [chunk_rounds]
  cases found : find_loop crlf now.pos_num now.header now.stream.unread now.stream.plan with
  | none =>
      rw [found] at moved
      cases moved
  | some parts =>
      obtain ⟨pos, header, stream⟩ := parts
      rw [found] at moved
      dsimp only at moved ⊢
      split at moved
      · cases moved
      · rename_i nonzero
        rw [if_neg nonzero]
        split at moved
        · rename_i missing
          rw [if_pos missing]
          split at moved
          · cases moved
          · rename_i small
            obtain ⟨read, got, rfl⟩ := Option.map_eq_some_iff.mp moved
            rw [if_neg small, got]
        · rename_i there
          cases moved
          rw [if_neg there]

theorem hexSize_lt (line : List Byte) : hexSize line < 2 ^ 64 := by
  unfold hexSize
  dsimp only
  generalize hexValue (List.takeWhile _ _) = value
  split
  · decide
  · rename_i small
    split
    · exact Nat.mod_lt _ (by decide)
    · exact Nat.not_le.mp small

/-! Progress of the parser. -/

theorem parse_round_line (input result : List Byte) (next : List Byte × List Byte)
    (moved : parse_round (input, result) = some next) :
    ∃ line after, input.dropInfix? crlf = some (line, after) ∧ hexSize line ≠ 0 ∧
      (line.length + 4 + hexSize line) % 2 ^ 64 ≤ input.length ∧
      next = (input.drop ((line.length + 4 + hexSize line) % 2 ^ 64),
        result ++ after.take (hexSize line)) := by
  cases found : input.dropInfix? crlf with
  | none => simp [parse_round, find, found] at moved
  | some parts =>
      obtain ⟨line, after⟩ := parts
      obtain ⟨place, size, data⟩ := first_line input line after found
      refine ⟨line, after, rfl, ?_⟩
      simp only [parse_round, place, size, data] at moved
      split at moved
      · cases moved
      · rename_i nonzero
        split at moved
        · cases moved
        · rename_i inside
          cases moved
          exact ⟨nonzero, Nat.not_lt.mp inside, rfl⟩

theorem parse_shorter (now next : List Byte × List Byte) (moved : parse_round now = some next)
    (sound : ¬ Zeroed now.1) : next.1.length < now.1.length := by
  obtain ⟨line, after, found, nonzero, inside, rfl⟩ := parse_round_line now.1 now.2 next moved
  have positive : (line.length + 4 + hexSize line) % 2 ^ 64 ≠ 0 := fun zero =>
    sound ⟨line, after, found, nonzero, Nat.dvd_of_mod_eq_zero zero⟩
  rw [List.length_drop]
  omega

theorem parse_zeroed (input result : List Byte) (zeroed : Zeroed input) :
    ∃ more, parse_round (input, result) = some (input, result ++ more) := by
  obtain ⟨line, after, found, nonzero, divides⟩ := zeroed
  obtain ⟨place, size, _⟩ := first_line input line after found
  simp only [parse_round, place, size, Nat.mod_eq_zero_of_dvd divides, nonzero, ↓reduceIte,
    Nat.not_lt_zero, List.drop_zero]
  exact ⟨_, rfl⟩

theorem parse_ends (bound : Nat) (input result : List Byte) (short : input.length < bound)
    (sound : ∀ now, Run parse_round (input, result) now → ¬ Zeroed now.1) :
    ∃ outcome, chunk_loop bound input result = some outcome := by
  induction bound generalizing input result with
  | zero => exact absurd short (Nat.not_lt_zero _)
  | succ bound ih =>
      rw [chunk_loop_round]
      cases moved : parse_round (input, result) with
      | none => exact ⟨_, rfl⟩
      | some next =>
          have less : next.1.length < input.length := parse_shorter _ next moved (sound _ (.done _))
          refine ih next.1 next.2 (by omega) ?_
          intro now ran
          exact sound now (.next trivial moved ran)

theorem parse_progresses (input result : List Byte) : Progresses input result ↔
    ∀ now, Run parse_round (input, result) now → ¬ Zeroed now.1 := by
  constructor
  · intro progresses now ran zeroed
    obtain ⟨more, moved⟩ := parse_zeroed now.1 now.2 zeroed
    exact absurd (progresses.shorter now _ ran moved) (Nat.lt_irrefl _)
  · intro sound
    refine ⟨fun now next ran moved => parse_shorter now next moved (sound now ran), ?_⟩
    exact ⟨_, parse_ends (input.length + 1) input result (Nat.lt_succ_self _) sound⟩

/-! Progress of the reader. -/

theorem find_loop_found (pattern : List Byte) (pos : Nat) (plan : List Nat)
    (header unread : List Byte) (found : Nat) (last : List Byte) (stream : Stream)
    (ran : find_loop pattern pos header unread plan = some (found, last, stream)) :
    findFrom last pattern pos = some found ∧ last ++ stream.unread = header ++ unread := by
  induction plan generalizing header unread with
  | nil =>
      rw [find_loop.eq_def] at ran
      split at ran
      · rename_i there
        cases ran
        exact ⟨there, rfl⟩
      · cases ran
  | cons size later ih =>
      rw [find_loop.eq_def] at ran
      split at ran
      · rename_i there
        cases ran
        exact ⟨there, rfl⟩
      · dsimp only at ran
        split at ran
        · cases ran
        · obtain ⟨there, whole⟩ := ih _ _ ran
          rw [List.append_assoc, received_append] at whole
          exact ⟨there, whole⟩

theorem read_nReal_whole (plan : List Nat) (len : Nat) (unread bytes : List Byte) (stream : Stream)
    (ran : read_nReal_timeout len unread plan = some (bytes, stream)) :
    bytes ++ stream.unread = unread := by
  induction plan generalizing len unread bytes with
  | nil =>
      rw [read_nReal_timeout] at ran
      split at ran
      · cases ran
        rfl
      · cases ran
  | cons size later ih =>
      rw [read_nReal_timeout] at ran
      split at ran
      · cases ran
        rfl
      · split at ran
        · cases ran
        · obtain ⟨rest, got, same⟩ := Option.map_eq_some_iff.mp ran
          cases same
          rw [List.append_assoc, ih _ _ _ got, received_append]

def Reading.total (now : Reading) : Nat := now.header.length + now.stream.unread.length

theorem line_place (now : Reading) (pos : Nat) (header : List Byte) (stream : Stream)
    (found : find_loop crlf now.pos_num now.header now.stream.unread now.stream.plan =
      some (pos, header, stream)) :
    now.pos_num ≤ pos ∧ pos + 2 ≤ header.length ∧
      header.length + stream.unread.length = now.total := by
  obtain ⟨there, whole⟩ := find_loop_found _ _ _ _ _ _ _ _ found
  have lengths := congrArg List.length whole
  rw [List.length_append, List.length_append] at lengths
  rw [findFrom] at there
  split at there
  · rename_i inside
    obtain ⟨ahead, occurs, rfl⟩ := Option.map_eq_some_iff.mp there
    rw [Int.toNat_natCast, find] at occurs
    cases split : (header.drop now.pos_num).dropInfix? crlf with
    | none => simp [split] at occurs
    | some parts =>
        simp only [split, Option.some.injEq] at occurs
        have text := congrArg List.length (Occurrence.split_text _ _ _ _ split)
        simp only [List.length_append, List.length_drop, crlf_length] at text
        rw [Int.toNat_natCast]
        exact ⟨Nat.le_add_right _ _, by omega, lengths⟩
  · cases there

theorem read_round_line (now next : Reading) (moved : read_round now = some next) :
    ∃ pos header stream,
      find_loop crlf now.pos_num now.header now.stream.unread now.stream.plan =
        some (pos, header, stream) ∧
      next.pos_num = (pos + 4 +
        hexSize ((header.drop now.pos_num).take (pos - now.pos_num))) % 2 ^ 64 ∧
      next.total = now.total := by
  cases found : find_loop crlf now.pos_num now.header now.stream.unread now.stream.plan with
  | none => simp [read_round, found] at moved
  | some parts =>
      obtain ⟨pos, header, stream⟩ := parts
      have whole := (line_place now pos header stream found).2.2
      refine ⟨pos, header, stream, rfl, ?_⟩
      simp only [read_round, found] at moved
      split at moved
      · cases moved
      · split at moved
        · split at moved
          · cases moved
          · obtain ⟨read, got, rfl⟩ := Option.map_eq_some_iff.mp moved
            have lengths := congrArg List.length (read_nReal_whole _ _ _ _ _ got)
            rw [List.length_append] at lengths
            refine ⟨rfl, ?_⟩
            simp only [Reading.total, List.length_append] at whole ⊢
            omega
        · cases moved
          exact ⟨rfl, whole⟩

theorem read_returns (now : Reading) (fits : now.total < 2 ^ 63) (returns : Returns now) :
    ∃ next, read_round now = some next := by
  obtain ⟨pos, header, stream, found, wraps, back⟩ := returns
  obtain ⟨behind, inside, whole⟩ := line_place now pos header stream found
  have nonzero : hexSize ((header.drop now.pos_num).take (pos - now.pos_num)) ≠ 0 := by omega
  have small : (pos + 4 + hexSize ((header.drop now.pos_num).take (pos - now.pos_num))) % 2 ^ 64 ≤
      now.pos_num := by omega
  simp only [read_round, found, nonzero, ↓reduceIte]
  generalize (pos + 4 + hexSize ((header.drop now.pos_num).take (pos - now.pos_num))) % 2 ^ 64 =
    pos_num at small
  -- The wrapped position is inside the string, so nothing is read and the round is taken.
  have there : ¬ 0 < toSsize ((pos_num : Int) - header.length) := by
    rw [ChunkRounds.toSsize_eq _ (by omega) (by omega)]
    omega
  rw [if_neg there]
  exact ⟨_, rfl⟩

theorem read_moves (now next : Reading) (fits : now.total < 2 ^ 63)
    (moved : read_round now = some next) : now.pos_num < next.pos_num ↔ ¬ Returns now := by
  obtain ⟨pos, header, stream, found, place, _⟩ := read_round_line now next moved
  obtain ⟨behind, inside, whole⟩ := line_place now pos header stream found
  have bound := hexSize_lt ((header.drop now.pos_num).take (pos - now.pos_num))
  have returns : Returns now ↔
      2 ^ 64 ≤ pos + 4 + hexSize ((header.drop now.pos_num).take (pos - now.pos_num)) ∧
        hexSize ((header.drop now.pos_num).take (pos - now.pos_num)) + (pos - now.pos_num) + 4 ≤
          2 ^ 64 := by
    constructor
    · rintro ⟨other, head, socket, same, wraps, back⟩
      rw [found] at same
      cases same
      exact ⟨wraps, back⟩
    · intro both
      exact ⟨pos, header, stream, found, both⟩
  rw [returns, place]
  omega

theorem read_total (start now : Reading) (ran : Run read_round start now) :
    now.total = start.total := by
  induction ran with
  | done => rfl
  | next _ moved _ ih =>
      obtain ⟨_, _, _, _, _, same⟩ := read_round_line _ _ moved
      rw [ih, same]

theorem read_advances (start : Reading) (fits : start.total < 2 ^ 63) :
    Advances start ↔ ∀ now, Run read_round start now → ¬ Returns now := by
  constructor
  · intro advances now ran returns
    have small : now.total < 2 ^ 63 := by rwa [read_total start now ran]
    obtain ⟨next, moved⟩ := read_returns now small returns
    exact (read_moves now next small moved).mp (advances now next ran moved) returns
  · intro sound now next ran moved
    have small : now.total < 2 ^ 63 := by rwa [read_total start now ran]
    exact (read_moves now next small moved).mpr (sound now ran)

/-! Both loops. -/

/-- The loops make progress exactly where no size takes the position back. -/
theorem loops_progress (input result : List Byte) (start : Reading)
    (fits : start.total < 2 ^ 63) :
    (Progresses input result ↔
      ∀ now, Run parse_round (input, result) now → ¬ Zeroed now.1) ∧
    (Advances start ↔ ∀ now, Run read_round start now → ¬ Returns now) :=
  ⟨parse_progresses input result, read_advances start fits⟩

/-- 16 digits, a number of 2^64 - 20: the next position is 0. -/
def endless : List Byte := text "FFFFFFFFFFFFFFEC\r\n"

theorem endless_zeroed : Zeroed endless :=
  ⟨text "FFFFFFFFFFFFFFEC", [], by decide, by decide +kernel, by decide +kernel⟩

theorem endless_loops (fuel : Nat) (result : List Byte) :
    chunk_loop fuel endless result = none := by
  induction fuel generalizing result with
  | zero => rfl
  | succ fuel ih =>
      obtain ⟨more, moved⟩ := parse_zeroed endless result endless_zeroed
      rw [chunk_loop_round, moved, Option.elim_some, ih]

/-- The parser stays on this line, and so does the reader. -/
theorem endless_stays :
    ¬ (∀ input result, Progresses input result) ∧ ¬ ∀ start, Advances start := by
  constructor
  · intro progresses
    obtain ⟨fuel, outcome, ends⟩ := (progresses endless []).ends
    rw [endless_loops] at ends
    cases ends
  · intro advances
    have moved : (read_round ⟨0, endless, ⟨[], []⟩, []⟩).any fun next => next.pos_num = 0 := by
      decide +kernel
    obtain ⟨next, there, zero⟩ := (Option.any_eq_true _ _).mp moved
    have less := advances ⟨0, endless, ⟨[], []⟩, []⟩ _ next (.done _) there
    rw [of_decide_eq_true zero] at less
    exact Nat.lt_irrefl _ less

/-- A string of which nothing is to come. -/
theorem loops_progress_endless :
    Reading.total ⟨0, endless, ⟨[], []⟩, []⟩ < 2 ^ 63 ∧
    (Progresses endless [] ↔ ∀ now, Run parse_round (endless, []) now → ¬ Zeroed now.1) ∧
    (Advances ⟨0, endless, ⟨[], []⟩, []⟩ ↔
      ∀ now, Run read_round ⟨0, endless, ⟨[], []⟩, []⟩ now → ¬ Returns now) :=
  ⟨by decide, loops_progress endless [] ⟨0, endless, ⟨[], []⟩, []⟩ (by decide)⟩

end AsrServer.ChunkProgress
