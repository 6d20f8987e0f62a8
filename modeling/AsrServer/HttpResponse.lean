import AsrServer.ChunkedContent

/-!
`readHttpResponse` and what it calls. A `Stream` is the socket: the bytes the peer has
still to deliver and, for each coming `recv`, a bound on the bytes it returns. The
time budget is never exhausted, so the clock is left out; a `recv` beyond the end of the
plan, or with nothing left to deliver, returns 0 as for a closed connection. All loops
around `recv` recur on the plan.
-/

namespace AsrServer.HttpResponse

open Bytes RequestHeader ChunkedContent

/-- `sizeof(buf)`. -/
def bufSize : Nat := 20480

structure Stream where
  unread : List Byte
  plan : List Nat

/-- The bytes one `recv` for `len` bytes returns, and the socket after it. -/
def received (size len : Nat) (unread : List Byte) : List Byte := unread.take (min size len)

def remaining (size len : Nat) (unread : List Byte) : List Byte := unread.drop (min size len)

/-- The first loop of `readHttpResponse`: `header_length`, what has been read and the
socket, or none where it ends with `ret` still -1. -/
def header_loop (header unread : List Byte) : List Nat → Option (Nat × List Byte × Stream)
  | [] => none
  | size :: later =>
      if received size bufSize unread = [] then none
      else
        let header := header ++ received size bufSize unread
        match find header crlfcrlf with
        | some pos => some (pos + 4, header, ⟨remaining size bufSize unread, later⟩)
        | none =>
            if 4096 < header.length then none
            else header_loop header (remaining size bufSize unread) later

/-- `read_nReal_timeout`: all of `len` bytes, or none where it returns less. -/
def read_nReal_timeout (len : Nat) (unread : List Byte) : List Nat → Option (List Byte × Stream)
  | [] => if len = 0 then some ([], ⟨unread, []⟩) else none
  | size :: later =>
      if len = 0 then some ([], ⟨unread, size :: later⟩)
      else if received size len unread = [] then none
      else
        (read_nReal_timeout (len - (received size len unread).length)
          (remaining size len unread) later).map fun (bytes, stream) =>
            (received size len unread ++ bytes, stream)

/-- The two inner loops of `readHttpIs_Chunk`: read until `pattern` is found from
`pos` on. -/
def find_loop (pattern : List Byte) (pos : Nat) (header unread : List Byte) (plan : List Nat) :
    Option (Nat × List Byte × Stream) :=
  match findFrom header pattern pos with
  | some found => some (found, header, ⟨unread, plan⟩)
  | none =>
      match plan with
      | [] => none
      | size :: later =>
          if received size bufSize unread = [] then none
          else
            find_loop pattern pos (header ++ received size bufSize unread)
              (remaining size bufSize unread) later

/-- The value of a `size_t` difference in a `ssize_t`. -/
def toSsize (value : Int) : Int := value.bmod (2 ^ 64)

/-- The outer loop of `readHttpIs_Chunk` and what follows it: the code and `result`. The
position does not go back unless it wraps, and then the fuel may run out. -/
def chunk_rounds : Nat → Nat → List Byte → Stream → List Byte → Option (Int × List Byte)
  | 0, _, _, _, _ => none
  | fuel + 1, pos_num, header, stream, result =>
      match find_loop crlf pos_num header stream.unread stream.plan with
      | none => some (-1, result)
      | some (pos_chunk_start, header, stream) =>
          let chunk_size := hexSize ((header.drop pos_num).take (pos_chunk_start - pos_num))
          if chunk_size = 0 then
            match find_loop crlfcrlf pos_chunk_start header stream.unread stream.plan with
            | none => some (-1, result)
            | some _ => some (0, result)
          else
            let pos_num : Nat := (pos_chunk_start + 4 + chunk_size) % 2 ^ 64
            let remain := toSsize (pos_num - header.length)
            if 0 < remain then
              if (bufSize : Int) < remain then some (-1, result)
              else
                match read_nReal_timeout remain.toNat stream.unread stream.plan with
                | none => some (-1, result)
                | some (bytes, stream) =>
                    chunk_rounds fuel pos_num (header ++ bytes) stream
                      (result ++ ((header ++ bytes).drop (pos_chunk_start + 2)).take chunk_size)
            else
              chunk_rounds fuel pos_num header stream
                (result ++ (header.drop (pos_chunk_start + 2)).take chunk_size)

def readHttpIs_Chunk (header : List Byte) (header_length : Nat) (stream : Stream) :
    Option (Int × List Byte) :=
  chunk_rounds (header.length + stream.unread.length + 1) header_length header stream []

/-- `atoi` on the C string at the front of the memory. -/
def atoi (memory : List Byte) : Int :=
  match scanNumber (cstr memory) with
  | some (value, _) => storeInt value
  | none => 0

def readHttpConten_Length (header : List Byte) (header_length : Nat) (stream : Stream) :
    Int × List Byte :=
  match find header (text "Content-Length:") with
  | none => (-1, [])
  | some pos =>
      if header_length ≤ pos then (-1, [])
      else
        let content_length := atoi (header.drop (pos + 15))
        if content_length < 0 then (-1, [])
        else
          let remain := toSsize (header_length + content_length - header.length)
          if remain < 0 then (-1, [])
          else if 0 < remain then
            if (bufSize : Int) < remain then (-1, [])
            else
              match read_nReal_timeout remain.toNat stream.unread stream.plan with
              | none => (-1, [])
              | some (bytes, _) => (0, (header ++ bytes).drop header_length)
          else (0, header.drop header_length)

def chunkedMark : List Byte := text "Transfer-Encoding: chunked\r\n"

def readHttpResponse (stream : Stream) : Option (Int × List Byte) :=
  match header_loop [] stream.unread stream.plan with
  | none => some (-1, [])
  | some (header_length, header, stream) =>
      match find header chunkedMark with
      | some pos =>
          if pos < header_length then readHttpIs_Chunk header header_length stream
          else some (readHttpConten_Length header header_length stream)
      | none => some (readHttpConten_Length header header_length stream)

/-! Fragmentations: each `recv` gets at least a byte, and there is one as long as bytes
are left. -/

structure Fragments (unread : List Byte) (plan : List Nat) : Prop where
  positive : ∀ size ∈ plan, 0 < size
  enough : unread.length ≤ plan.length

theorem received_length (size len : Nat) (unread : List Byte) :
    (received size len unread).length = min (min size len) unread.length :=
  List.length_take

theorem received_append (size len : Nat) (unread : List Byte) :
    received size len unread ++ remaining size len unread = unread :=
  List.take_append_drop _ _

theorem Fragments.brings {unread : List Byte} {plan : List Nat} (fragments : Fragments unread plan)
    (more : unread ≠ []) : ∃ size later, plan = size :: later ∧ 0 < size := by
  cases plan with
  | nil => exact absurd (List.length_eq_zero_iff.mp (Nat.le_zero.mp fragments.enough)) more
  | cons size later => exact ⟨size, later, rfl, fragments.positive size (by simp)⟩

theorem received_some {size len : Nat} {unread : List Byte} (offers : 0 < size) (asked : 0 < len)
    (more : unread ≠ []) : received size len unread ≠ [] := by
  have length := List.length_pos_iff.mpr more
  apply List.length_pos_iff.mp
  rw [received_length]
  omega

theorem Fragments.later {unread : List Byte} {size : Nat} {plan : List Nat}
    (fragments : Fragments unread (size :: plan)) (len : Nat) (asked : 0 < len) :
    Fragments (remaining size len unread) plan := by
  constructor
  · intro other member
    exact fragments.positive other (List.mem_cons_of_mem _ member)
  · have offers := fragments.positive size (by simp)
    have enough := fragments.enough
    simp only [List.length_cons] at enough
    rw [remaining, List.length_drop]
    omega

/-! Each loop, under every fragmentation. -/

theorem findFrom_nat (string pattern : List Byte) (pos : Nat) (inside : pos ≤ string.length) :
    findFrom string pattern pos = (find (string.drop pos) pattern).map (pos + ·) := by
  rw [findFrom, if_pos (by omega), Int.toNat_natCast]

structure Reading (response header : List Byte) (stream : Stream) : Prop where
  whole : header ++ stream.unread = response
  fragments : Fragments stream.unread stream.plan

theorem Reading.recv {response header unread : List Byte} {size : Nat} {plan : List Nat}
    (reading : Reading response header ⟨unread, size :: plan⟩) (len : Nat) (asked : 0 < len) :
    Reading response (header ++ received size len unread) ⟨remaining size len unread, plan⟩ := by
  constructor
  · rw [List.append_assoc, received_append]
    exact reading.whole
  · exact reading.fragments.later len asked

theorem Reading.drop {response header : List Byte} {stream : Stream}
    (reading : Reading response header stream) (pos : Nat) (started : pos ≤ header.length) :
    header.drop pos ++ stream.unread = response.drop pos := by
  rw [← reading.whole, List.drop_append_of_le_length started]

/-- A loop that looks for a pattern the response holds finds it there, and reads less than
a buffer beyond its end. -/
theorem find_loop_finds (pattern response before after : List Byte) (pos : Nat)
    (occurs : (response.drop pos).dropInfix? pattern = some (before, after))
    (plan : List Nat) (header unread : List Byte)
    (reading : Reading response header ⟨unread, plan⟩) (started : pos ≤ header.length) :
    ∃ last stream, find_loop pattern pos header unread plan =
        some (pos + before.length, last, stream) ∧
      Reading response last stream ∧ pos + before.length + pattern.length ≤ last.length ∧
      (last.length = header.length ∨
        last.length < pos + before.length + pattern.length + bufSize) := by
  induction plan generalizing header unread with
  | nil =>
      have split := reading.drop pos started
      rw [← split] at occurs
      rcases find_front _ _ _ _ _ occurs with ⟨_, more⟩ | ⟨found, shape, _⟩
      · obtain ⟨_, _, ended, _⟩ := reading.fragments.brings more
        cases ended
      · have lengths := congrArg List.length shape
        simp only [List.length_append, List.length_drop] at lengths
        refine ⟨header, ⟨unread, []⟩, ?_, reading, by omega, Or.inl rfl⟩
        rw [find_loop.eq_def, findFrom_nat _ _ _ started, found, Option.map_some]
  | cons size later ih =>
      have split := reading.drop pos started
      have whole := occurs
      rw [← split] at occurs
      rcases find_front _ _ _ _ _ occurs with ⟨missing, more⟩ | ⟨found, shape, _⟩
      · have offers := reading.fragments.positive size (by simp)
        have brings := received_some offers (by decide : 0 < bufSize) more
        -- The pattern is completed by what is still to come.
        have absent : (header.drop pos).dropInfix? pattern = none := by
          cases found : (header.drop pos).dropInfix? pattern with
          | none => rfl
          | some parts => simp [find, found] at missing
        have reaches := Occurrence.split_reaches _ _ _ _ _ absent occurs
        rw [List.length_drop] at reaches
        obtain ⟨last, stream, ran, after, ends, bound⟩ :=
          ih (header ++ received size bufSize unread) (remaining size bufSize unread)
            (reading.recv bufSize (by decide)) (by rw [List.length_append]; omega)
        refine ⟨last, stream, ?_, after, ends, ?_⟩
        · rw [find_loop.eq_def, findFrom_nat _ _ _ started, missing, Option.map_none]
          simp only [brings, ↓reduceIte]
          exact ran
        · right
          rcases bound with same | less
          · have got := received_length size bufSize unread
            rw [List.length_append] at same
            omega
          · exact less
      · have lengths := congrArg List.length shape
        simp only [List.length_append, List.length_drop] at lengths
        refine ⟨header, ⟨unread, size :: later⟩, ?_, reading, by omega, Or.inl rfl⟩
        rw [find_loop.eq_def, findFrom_nat _ _ _ started, found, Option.map_some]

theorem read_nReal_reads (response : List Byte) (plan : List Nat) (len : Nat)
    (header unread : List Byte) (reading : Reading response header ⟨unread, plan⟩)
    (there : len ≤ unread.length) :
    ∃ stream, read_nReal_timeout len unread plan = some (unread.take len, stream) ∧
      Reading response (header ++ unread.take len) stream := by
  -- On the plan; while `len` asks for a byte a `recv` brings one.
  induction plan generalizing len header unread with
  | nil =>
      have enough := reading.fragments.enough
      have zero : len = 0 := by
        simp only [List.length_nil, Nat.le_zero] at enough
        omega
      subst zero
      exact ⟨⟨unread, []⟩, by simp [read_nReal_timeout], by simpa using reading⟩
  | cons size later ih =>
      by_cases zero : len = 0
      · subst zero
        exact ⟨⟨unread, size :: later⟩, by simp [read_nReal_timeout], by simpa using reading⟩
      · have offers := reading.fragments.positive size (by simp)
        have more : unread ≠ [] := by
          rintro rfl
          rw [List.length_nil] at there
          omega
        have brings := received_some offers (by omega : 0 < len) more
        have got := received_length size len unread
        have rest : (remaining size len unread).length = unread.length - min size len := by
          rw [remaining, List.length_drop]
        obtain ⟨stream, ran, after⟩ := ih (len - (received size len unread).length)
          (header ++ received size len unread) (remaining size len unread)
          (reading.recv len (by omega)) (by omega)
        have joined : received size len unread ++
            (remaining size len unread).take (len - (received size len unread).length) =
            unread.take len := by
          have whole := received_append size len unread
          have front := congrArg (List.take len) whole
          rw [List.take_append, List.take_of_length_le (by omega)] at front
          exact front
        refine ⟨stream, ?_, ?_⟩
        · simp only [read_nReal_timeout, zero, brings, ↓reduceIte, ran, Option.map_some, joined]
        · rw [List.append_assoc, joined] at after
          exact after

/-- The header is found, with what one `recv` brings beyond it, or it is longer than the
loop goes on for. -/
theorem header_loop_finds (response before after : List Byte)
    (ends : response.dropInfix? crlfcrlf = some (before, after)) (plan : List Nat)
    (header unread : List Byte) (reading : Reading response header ⟨unread, plan⟩)
    (short : header.length < before.length + 4) (small : header.length ≤ 4096) :
    (header_loop header unread plan = none ∧ 4097 < before.length + 4) ∨
      ∃ last stream, header_loop header unread plan = some (before.length + 4, last, stream) ∧
        Reading response last stream ∧ before.length + 4 ≤ last.length ∧
        last.length ≤ min 4096 (before.length + 3) + bufSize := by
  induction plan generalizing header unread with
  | nil =>
      have enough := reading.fragments.enough
      have lengths := congrArg List.length reading.whole
      have split := congrArg List.length (Occurrence.split_text _ _ _ _ ends)
      simp only [List.length_append, List.length_nil, Nat.le_zero, crlfcrlf_length] at *
      omega
  | cons size later ih =>
      have offers := reading.fragments.positive size (by simp)
      have more : unread ≠ [] := by
        rintro rfl
        have lengths := congrArg List.length reading.whole
        have split := congrArg List.length (Occurrence.split_text _ _ _ _ ends)
        simp only [List.length_append, List.length_nil, crlfcrlf_length] at lengths split
        omega
      have brings := received_some offers (by decide : 0 < bufSize) more
      have got := received_length size bufSize unread
      have next := reading.recv bufSize (by decide)
      have split := ends
      rw [← next.whole] at split
      simp only [header_loop, brings, ↓reduceIte]
      -- The terminator is not all there yet, or the header ends in what has come in.
      rcases find_front _ _ _ _ _ split with ⟨missing, _⟩ | ⟨found, shape, _⟩
      · simp only [missing]
        have absent : (header ++ received size bufSize unread).dropInfix? crlfcrlf = none := by
          cases found : (header ++ received size bufSize unread).dropInfix? crlfcrlf with
          | none => rfl
          | some parts => simp [find, found] at missing
        have reaches := Occurrence.split_reaches _ _ _ _ _ absent split
        rw [crlfcrlf_length] at reaches
        by_cases large : 4096 < (header ++ received size bufSize unread).length
        · left
          simp only [large, ↓reduceIte, true_and]
          omega
        · simp only [large, ↓reduceIte]
          exact ih _ _ next reaches (by omega)
      · right
        have lengths := congrArg List.length shape
        simp only [found]
        refine ⟨_, _, rfl, next, ?_, ?_⟩
        · simp only [List.length_append, crlfcrlf_length] at lengths ⊢
          omega
        · rw [List.length_append]
          omega

/-! Plans that stop a loop at a place of one's choice. -/

theorem Reading.shape {response header : List Byte} {stream : Stream}
    (reading : Reading response header stream) :
    header = response.take header.length ∧
      stream = ⟨response.drop header.length, stream.plan⟩ := by
  constructor
  · rw [← reading.whole, List.take_left]
  · rw [← reading.whole, List.drop_left]

theorem findFrom_take (pattern response before after : List Byte) (pos length : Nat)
    (occurs : (response.drop pos).dropInfix? pattern = some (before, after))
    (started : pos ≤ length) (inside : length ≤ response.length) :
    findFrom (response.take length) pattern pos =
      if pos + before.length + pattern.length ≤ length then some (pos + before.length)
      else none := by
  have size : (response.take length).length = length := List.length_take_of_le inside
  have split : (response.take length).drop pos ++ response.drop length = response.drop pos := by
    rw [← List.drop_append_of_le_length (by omega), List.take_append_drop]
  rw [findFrom_nat _ _ _ (by omega)]
  have whole := occurs
  rw [← split] at occurs
  rcases find_front _ _ _ _ _ occurs with ⟨missing, _⟩ | ⟨found, shape, _⟩
  · rw [missing, Option.map_none, if_neg]
    intro reaches
    have text := Occurrence.split_text _ _ _ _ whole
    rw [← split] at text
    have front := congrArg (List.take (before ++ pattern).length) text
    rw [List.take_left, List.take_append_of_le_length (by
      rw [List.length_append, List.length_drop, size]
      omega)] at front
    have parts := List.take_append_drop (before ++ pattern).length
      ((response.take length).drop pos)
    rw [front] at parts
    cases absent : ((response.take length).drop pos).dropInfix? pattern with
    | none => exact (Occurrence.split_none_iff _ _).mp absent _ _ parts.symm
    | some found => simp [find, absent] at missing
  · have lengths := congrArg List.length shape
    simp only [List.length_append, List.length_drop, size] at lengths
    rw [found, Option.map_some, if_pos (by omega)]

theorem recv_exact (response : List Byte) (length size len : Nat) (asked : size ≤ len) :
    response.take length ++ received size len (response.drop length) =
        response.take (length + size) ∧
      remaining size len (response.drop length) = response.drop (length + size) := by
  rw [received, remaining, Nat.min_eq_left asked, List.drop_drop]
  exact ⟨List.take_add.symm, rfl⟩

theorem recv_some (response : List Byte) (length size len : Nat) (offers : 0 < size)
    (asked : size ≤ len) (inside : length + size ≤ response.length) :
    received size len (response.drop length) ≠ [] := by
  apply received_some offers (by omega)
  intro nothing
  have lengths := congrArg List.length nothing
  rw [List.length_drop, List.length_nil] at lengths
  omega

theorem find_loop_step (pattern response : List Byte) (pos length size : Nat) (later : List Nat)
    (missing : findFrom (response.take length) pattern pos = none) (offers : 0 < size)
    (asked : size ≤ bufSize) (inside : length + size ≤ response.length) :
    find_loop pattern pos (response.take length) (response.drop length) (size :: later) =
      find_loop pattern pos (response.take (length + size)) (response.drop (length + size))
        later := by
  have brings := recv_some response length size bufSize offers asked inside
  obtain ⟨front, rest⟩ := recv_exact response length size bufSize asked
  rw [find_loop.eq_def]
  simp only [missing, brings, ↓reduceIte, front, rest]

theorem find_loop_stops (pattern response before after : List Byte) (pos length target : Nat)
    (more : List Nat) (ones : Nat)
    (occurs : (response.drop pos).dropInfix? pattern = some (before, after))
    (started : pos ≤ length)
    (count : length + ones + 1 = pos + before.length + pattern.length)
    (reaches : length + ones < target) (inside : target ≤ response.length)
    (close : target ≤ length + ones + bufSize) :
    find_loop pattern pos (response.take length) (response.drop length)
        (List.replicate ones 1 ++ (target - (length + ones)) :: more) =
      some (pos + before.length, response.take target, ⟨response.drop target, more⟩) := by
  induction ones generalizing length with
  | zero =>
      have here := findFrom_take pattern response before after pos length occurs started
        (by omega)
      have there := findFrom_take pattern response before after pos target occurs
        (by omega) inside
      rw [if_neg (by omega)] at here
      rw [if_pos (by omega)] at there
      have arrive : length + (target - (length + 0)) = target := by omega
      rw [List.replicate_zero, List.nil_append, find_loop_step _ _ _ _ _ _ here
        (by omega) (by omega) (by omega), arrive, find_loop.eq_def]
      simp only [there]
  | succ ones ih =>
      have here := findFrom_take pattern response before after pos length occurs started
        (by omega)
      rw [if_neg (by omega)] at here
      rw [List.replicate_succ, List.cons_append, find_loop_step _ _ _ _ _ _ here (by decide)
        (by decide) (by omega)]
      have same : length + (ones + 1) = length + 1 + ones := by omega
      rw [same]
      exact ih (length + 1) (by omega) (by omega) (by omega) (by omega)

theorem read_nReal_stops (response : List Byte) (length len : Nat) (more : List Nat)
    (asked : 0 < len) (inside : length + len ≤ response.length) :
    read_nReal_timeout len (response.drop length) (len :: more) =
      some ((response.drop length).take len, ⟨response.drop (length + len), more⟩) := by
  have brings := recv_some response length len len asked (Nat.le_refl len) inside
  have rest := (recv_exact response length len len (Nat.le_refl len)).2
  have got : received len len (response.drop length) = (response.drop length).take len := by
    rw [received, Nat.min_self]
  have all : ((response.drop length).take len).length = len := by
    rw [List.length_take, List.length_drop]
    omega
  have positive : ¬ len = 0 := by omega
  have done : ∀ (unread : List Byte) (plan : List Nat),
      read_nReal_timeout 0 unread plan = Option.some ([], ⟨unread, plan⟩) := by
    intro unread plan
    cases plan with
    | nil => rfl
    | cons size later => rfl
  rw [got] at brings
  simp only [read_nReal_timeout, positive, brings, ↓reduceIte, got, all, rest, Nat.sub_self, done,
    Option.map_some, List.append_nil]

theorem header_loop_step (response before after : List Byte)
    (ends : response.dropInfix? crlfcrlf = some (before, after)) (length size : Nat)
    (later : List Nat) (offers : 0 < size) (asked : size ≤ bufSize)
    (inside : length + size ≤ response.length) :
    header_loop (response.take length) (response.drop length) (size :: later) =
      if before.length + 4 ≤ length + size then
        some (before.length + 4, response.take (length + size),
          ⟨response.drop (length + size), later⟩)
      else if 4096 < length + size then none
      else header_loop (response.take (length + size)) (response.drop (length + size)) later := by
  have brings := recv_some response length size bufSize offers asked inside
  obtain ⟨front, rest⟩ := recv_exact response length size bufSize asked
  have found := findFrom_take crlfcrlf response before after 0 (length + size)
    (by rw [List.drop_zero]; exact ends) (Nat.zero_le _) inside
  rw [findFrom_nat _ _ _ (Nat.zero_le _), List.drop_zero, crlfcrlf_length] at found
  simp only [Nat.zero_add, Option.map_id'] at found
  have counted : (response.take (length + size)).length = length + size :=
    List.length_take_of_le inside
  simp only [header_loop, brings, ↓reduceIte, front, rest, found, counted]
  split
  · rename_i here
    split at here
    · rename_i reaches
      cases here
      rw [if_pos reaches]
    · cases here
  · rename_i here
    split at here
    · cases here
    · rename_i short
      rw [if_neg short]

theorem header_loop_stops (response before after : List Byte)
    (ends : response.dropInfix? crlfcrlf = some (before, after)) (length target : Nat)
    (more : List Nat) (ones : Nat) (short : length + ones < before.length + 4)
    (small : length + ones ≤ 4096) (reaches : before.length + 4 ≤ target)
    (inside : target ≤ response.length) (close : target ≤ length + ones + bufSize) :
    header_loop (response.take length) (response.drop length)
        (List.replicate ones 1 ++ (target - (length + ones)) :: more) =
      some (before.length + 4, response.take target, ⟨response.drop target, more⟩) := by
  induction ones generalizing length with
  | zero =>
      have arrive : length + (target - (length + 0)) = target := by omega
      rw [List.replicate_zero, List.nil_append, header_loop_step _ _ _ ends _ _ _
        (by omega) (by omega) (by omega), arrive, if_pos reaches]
  | succ ones ih =>
      rw [List.replicate_succ, List.cons_append, header_loop_step _ _ _ ends _ _ _ (by decide)
        (by decide) (by omega), if_neg (by omega), if_neg (by omega)]
      have same : length + (ones + 1) = length + 1 + ones := by omega
      rw [same]
      exact ih (length + 1) (by omega) (by omega) (by omega)

theorem header_loop_misses (response before after : List Byte)
    (ends : response.dropInfix? crlfcrlf = some (before, after)) (length : Nat)
    (more : List Nat) (ones : Nat) (long : 4097 < before.length + 4)
    (count : length + ones = 4097) (positive : 0 < ones) :
    header_loop (response.take length) (response.drop length) (List.replicate ones 1 ++ more) =
      none := by
  have text := congrArg List.length (Occurrence.split_text _ _ _ _ ends)
  simp only [List.length_append, crlfcrlf_length] at text
  induction ones generalizing length with
  | zero => exact absurd positive (Nat.lt_irrefl 0)
  | succ ones ih =>
      rw [List.replicate_succ, List.cons_append, header_loop_step _ _ _ ends _ _ _ (by decide)
        (by decide) (by omega), if_neg (by omega)]
      by_cases last : ones = 0
      · rw [if_pos (by omega)]
      · rw [if_neg (by omega)]
        exact ih (length + 1) (by omega) (by omega)

end AsrServer.HttpResponse
