import AsrServer.ReadPath

/-!
What the read path means on bytes alone. `frame` is one message taken off the
front of a byte string, with no buffer, no kernel and no reads. As long as the
bytes read contain no zero, a call of `recv_request` that submits a worker
agrees with `frame` on the bytes the connection holds, and when no read times
out every call does, whatever the fragmentation.
-/

namespace AsrServer.Framing

open Bytes ReadPath

def nextHeader (bytes : List Byte) : HeaderResult × List Byte :=
  (cut_header bytes).getD (.error, bytes)

def nextBody (bytes : List Byte) (length : Int) : BodyResult × List Byte :=
  if length < 0 then (.out_of_range, bytes)
  else if length ≤ bytes.length then
    (.ret length (bytes.take length.toNat), bytes.drop length.toNat)
  else (.ret bytes.length bytes, [])

/-- One message off the front of `bytes`: how it ends and what is left. -/
def frame (info : List Byte → Option Int) (bytes : List Byte) : Outcome × List Byte :=
  match nextHeader bytes with
  | (.error, rest) => (.disconnect none, rest)
  | (.out_of_range, rest) => (.out_of_range, rest)
  | (.complete http, rest) =>
      match verdict info http with
      | none => (.invalid http, rest)
      | some length =>
          match nextBody rest length with
          | (.out_of_range, last) => (.out_of_range, last)
          | (.ret count request, last) =>
              if count = length then (.submitted http request, last)
              else (.disconnect (some (http, request)), last)

/-! The header's terminator, once buffered, is found at the same place however
many bytes follow. -/

/-- `pos + 4` either stays inside the buffer or wraps below zero. -/
theorem substr_after_terminator (bytes before after : List Byte)
    (found : bytes.dropInfix? crlfcrlf = some (before, after))
    (valid : 0 ≤ toInt before.length) :
    toInt (toInt before.length + 4) < 0 ∨
      (toInt (toInt before.length + 4) = toInt before.length + 4 ∧
        toInt before.length + 4 ≤ bytes.length) := by
  have low := toInt_le before.length
  have high := toInt_high before.length
  have lengths := congrArg List.length (Occurrence.split_text _ _ _ _ found)
  simp only [List.length_append, crlfcrlf_length] at lengths
  by_cases fits : toInt before.length + 4 < 2 ^ 31
  · exact Or.inr ⟨toInt_eq _ (by omega) fits, by omega⟩
  · exact Or.inl (toInt_wraps _ (by omega) (by omega))

theorem cut_missing (buffer : List Byte) (missing : buffer.dropInfix? crlfcrlf = none) :
    cut_header buffer = none := by
  simp [cut_header, find, missing]

theorem cut_found (buffer before after : List Byte)
    (found : buffer.dropInfix? crlfcrlf = some (before, after)) :
    cut_header buffer =
      if 0 ≤ toInt before.length then
        if toInt (toInt before.length + 4) < 0 then some (.out_of_range, buffer)
        else some (.complete (buffer.take (toInt before.length).toNat),
          buffer.drop (toInt before.length + 4).toNat)
      else none := by
  simp only [cut_header, find, found]
  by_cases valid : 0 ≤ toInt before.length
  · simp only [valid, ↓reduceIte, substrTo]
    rcases substr_after_terminator buffer before after found valid with wraps | ⟨same, inside⟩
    · rw [if_pos wraps, substr, if_neg (by omega)]
    · rw [same, substr, if_pos (by omega), if_neg (by omega)]
  · simp [valid]

theorem cut_append (buffer more : List Byte) (result : HeaderResult) (rest : List Byte)
    (cut : cut_header buffer = some (result, rest)) :
    cut_header (buffer ++ more) = some (result, rest ++ more) := by
  cases found : buffer.dropInfix? crlfcrlf with
  | none => simp [cut_missing buffer found] at cut
  | some parts =>
      obtain ⟨before, after⟩ := parts
      have extended := Occurrence.split_append _ _ _ _ more found
      rw [cut_found _ _ _ found] at cut
      rw [cut_found _ _ _ extended]
      by_cases valid : 0 ≤ toInt before.length
      · simp only [valid, ↓reduceIte] at cut ⊢
        rcases substr_after_terminator buffer before after found valid with wraps | ⟨same, inside⟩
        · simp only [wraps, ↓reduceIte] at cut ⊢
          cases cut
          rfl
        · have forward : ¬ toInt (toInt before.length + 4) < 0 := by omega
          simp only [forward, ↓reduceIte] at cut ⊢
          cases cut
          rw [List.take_append_of_le_length (by omega), List.drop_append_of_le_length (by omega)]
      · simp [valid] at cut

theorem cut_not_error (buffer rest : List Byte) : cut_header buffer ≠ some (.error, rest) := by
  cases found : buffer.dropInfix? crlfcrlf with
  | none => simp [cut_missing buffer found]
  | some parts =>
      rw [cut_found _ parts.1 parts.2 found]
      split
      · split <;> simp
      · simp

/-! Reads. `CleanReads` is about the bytes that left the kernel between two
moments, so it says nothing of what the client sends afterwards. -/

/-- The bytes taken from the socket between two moments hold no zero. -/
def CleanReads (before after : Conn) : Prop :=
  ∀ taken, before.unread = taken ++ after.unread → 0 ∉ taken

theorem clean_of_unread (before after : Conn) (clean : 0 ∉ before.unread) :
    CleanReads before after := by
  intro taken split zero
  exact clean (by rw [split]; exact List.mem_append_left _ zero)

theorem read_data_split (size : Nat) (unread : List Byte) (buf_len : Nat) :
    (read_data size unread buf_len).1 ++ (read_data size unread buf_len).2 = unread :=
  List.take_append_drop _ _

theorem read_data_empty (size : Nat) (unread : List Byte) (buf_len : Nat)
    (offers : 0 < size) (room : 0 < buf_len)
    (nothing : (read_data size unread buf_len).1 = []) : unread = [] := by
  unfold read_data at nothing
  rcases List.take_eq_nil_iff.mp nothing with zero | empty
  · omega
  · exact empty

theorem flowing_read (buffer unread : List Byte) (size : Nat) (later : List Nat) (buf_len : Nat)
    (flowing : (Conn.mk buffer unread (size :: later)).Flowing)
    (nonempty : (read_data size unread buf_len).1 ≠ []) (next : List Byte) :
    (Conn.mk next (read_data size unread buf_len).2 later).Flowing := by
  obtain ⟨positive, enough⟩ := flowing
  refine ⟨fun entry member => positive entry (List.mem_cons_of_mem _ member), ?_⟩
  have grows : 0 < (read_data size unread buf_len).1.length := List.length_pos_iff.mpr nonempty
  have lengths := congrArg List.length (read_data_split size unread buf_len)
  simp only [List.length_append, List.length_cons] at *
  omega

/-- A failed read consumes its plan entry; when none fails early the socket is dry. -/
theorem flowing_dry (buffer unread : List Byte) (size : Nat) (later : List Nat) (buf_len : Nat)
    (room : 0 < buf_len) (flowing : (Conn.mk buffer unread (size :: later)).Flowing)
    (nothing : (read_data size unread buf_len).1 = []) (next : List Byte) :
    unread = [] ∧ (Conn.mk next unread later).Flowing := by
  have dry := read_data_empty size unread buf_len (flowing.1 size (by simp)) room nothing
  subst dry
  exact ⟨rfl, fun entry member => flowing.1 entry (List.mem_cons_of_mem _ member), Nat.zero_le _⟩

section Header

theorem header_loop_unread (plan : List Nat) (buffer unread : List Byte) :
    ∃ taken, unread = taken ++ (header_loop buffer unread plan).2.unread := by
  induction plan generalizing buffer unread with
  | nil =>
      unfold header_loop
      split <;> exact ⟨[], rfl⟩
  | cons size later ih =>
      unfold header_loop
      split
      · exact ⟨[], rfl⟩
      · dsimp only
        split
        · exact ⟨[], rfl⟩
        · obtain ⟨taken, split⟩ := ih (buffer ++ cstr (read_data size unread readBufSize).1)
            (read_data size unread readBufSize).2
          refine ⟨(read_data size unread readBufSize).1 ++ taken, ?_⟩
          rw [List.append_assoc, ← split, read_data_split]

structure HeaderRead (bytes : List Byte) (flowing : Prop) (result : HeaderResult)
    (after : Conn) : Prop where
  found : result ≠ .error → cut_header bytes = some (result, after.pending)
  kept : result = .error → after.pending = bytes
  drained : flowing → result = .error → cut_header bytes = none
  flows : flowing → after.Flowing

theorem header_buffered (buffer unread rest : List Byte) (plan : List Nat) (result : HeaderResult)
    (cut : cut_header buffer = some (result, rest)) :
    HeaderRead (buffer ++ unread) (Conn.mk buffer unread plan).Flowing result
      ⟨rest, unread, plan⟩ := by
  have present : result ≠ .error := by
    intro same
    exact cut_not_error buffer rest (by rw [cut, same])
  constructor
  case found => exact fun _ => cut_append buffer unread result rest cut
  case kept => exact fun same => absurd same present
  case drained => exact fun _ same => absurd same present
  case flows => exact fun flowing => flowing

/-- The buffer followed by the unread bytes is what every iteration keeps. -/
theorem header_loop_spec (plan : List Nat) (buffer unread : List Byte)
    (clean : ∀ taken, unread = taken ++ (header_loop buffer unread plan).2.unread → 0 ∉ taken) :
    HeaderRead (buffer ++ unread) (Conn.mk buffer unread plan).Flowing
      (header_loop buffer unread plan).1 (header_loop buffer unread plan).2 := by
  induction plan generalizing buffer unread with
  | nil =>
      unfold header_loop
      cases cut : cut_header buffer with
      | some parts => exact header_buffered buffer unread parts.2 _ parts.1 cut
      | none =>
          refine ⟨fun wrong => absurd rfl wrong, fun _ => rfl, ?_, fun flowing => flowing⟩
          intro flowing _
          have dry : unread = [] := List.length_eq_zero_iff.mp (Nat.le_zero.mp flowing.2)
          rw [dry, List.append_nil]
          exact cut
  | cons size later ih =>
      unfold header_loop at clean ⊢
      cases cut : cut_header buffer with
      | some parts => exact header_buffered buffer unread parts.2 _ parts.1 cut
      | none =>
          simp only [cut] at clean ⊢
          by_cases nothing : (read_data size unread readBufSize).1 = []
          · simp only [nothing, ↓reduceIte]
            have dry (flowing : (Conn.mk buffer unread (size :: later)).Flowing) :=
              flowing_dry buffer unread size later readBufSize (by decide) flowing nothing buffer
            refine ⟨fun wrong => absurd rfl wrong, fun _ => rfl, ?_, fun flowing => (dry flowing).2⟩
            intro flowing _
            rw [(dry flowing).1, List.append_nil]
            exact cut
          · simp only [nothing, ↓reduceIte] at clean ⊢
            -- The chunk is clean because it is part of what the whole loop takes.
            have joined := read_data_split size unread readBufSize
            obtain ⟨taken, split⟩ := header_loop_unread later
              (buffer ++ cstr (read_data size unread readBufSize).1)
              (read_data size unread readBufSize).2
            have chunk : 0 ∉ (read_data size unread readBufSize).1 := by
              intro zero
              refine clean ((read_data size unread readBufSize).1 ++ taken) ?_
                (List.mem_append_left _ zero)
              rw [List.append_assoc, ← split, joined]
            have tail := ih (buffer ++ cstr (read_data size unread readBufSize).1)
              (read_data size unread readBufSize).2
              (fun later split zero => clean ((read_data size unread readBufSize).1 ++ later)
                (by rw [List.append_assoc, ← split, joined]) (List.mem_append_right _ zero))
            have same : (buffer ++ cstr (read_data size unread readBufSize).1) ++
                (read_data size unread readBufSize).2 = buffer ++ unread := by
              rw [cstr_eq _ chunk, List.append_assoc, joined]
            rw [same] at tail
            have flows (flowing : (Conn.mk buffer unread (size :: later)).Flowing) :=
              flowing_read buffer unread size later readBufSize flowing nothing
                (buffer ++ cstr (read_data size unread readBufSize).1)
            exact ⟨tail.found, tail.kept, fun flowing => tail.drained (flows flowing),
              fun flowing => tail.flows (flows flowing)⟩

theorem read_header_spec (conn after : Conn) (result : HeaderResult)
    (ran : read_http_header_timeout conn = (result, after)) (clean : CleanReads conn after) :
    HeaderRead conn.pending conn.Flowing result after := by
  unfold read_http_header_timeout at ran
  have spec := header_loop_spec conn.plan conn.read_buf conn.unread
    (by rw [ran]; exact clean)
  rw [ran] at spec
  exact spec

end Header

section Body

theorem body_loop_unread (plan : List Nat) (buf_len : Int) (content : List Byte) (left : Int)
    (unread : List Byte) :
    ∃ taken, unread = taken ++ (body_loop buf_len content left unread plan).2.unread := by
  induction plan generalizing content left unread with
  | nil =>
      unfold body_loop
      split <;> exact ⟨[], rfl⟩
  | cons size later ih =>
      unfold body_loop
      split
      · dsimp only
        split
        · exact ⟨[], rfl⟩
        · obtain ⟨taken, split⟩ := ih
            (content ++ cstr (read_data size unread (min left.toNat readBufSize)).1)
            (left - (read_data size unread (min left.toNat readBufSize)).1.length)
            (read_data size unread (min left.toNat readBufSize)).2
          refine ⟨(read_data size unread (min left.toNat readBufSize)).1 ++ taken, ?_⟩
          rw [List.append_assoc, ← split, read_data_split]
      · exact ⟨[], rfl⟩

structure BodyRead (bytes : List Byte) (length : Int) (flowing : Prop) (result : BodyResult)
    (after : Conn) : Prop where
  whole : ∀ request, result = .ret length request →
    nextBody bytes length = (.ret length request, after.pending)
  exact : flowing → nextBody bytes length = (result, after.pending)
  flows : flowing → after.Flowing

theorem nextBody_complete (bytes request rest : List Byte) (length : Int)
    (taken : nextBody bytes length = (.ret length request, rest)) :
    bytes = request ++ rest ∧ (request.length : Int) = length := by
  unfold nextBody at taken
  split at taken
  · cases taken
  · split at taken
    · simp only [Prod.mk.injEq, BodyResult.ret.injEq, true_and] at taken
      obtain ⟨body, after⟩ := taken
      subst body after
      exact ⟨(List.take_append_drop _ _).symm, by simp only [List.length_take]; omega⟩
    · simp only [Prod.mk.injEq, BodyResult.ret.injEq] at taken
      omega

theorem nextBody_whole (bytes : List Byte) (length : Int) (low : 0 ≤ length)
    (enough : length ≤ bytes.length) :
    nextBody bytes length = (.ret length (bytes.take length.toNat), bytes.drop length.toNat) := by
  unfold nextBody
  rw [if_neg (by omega), if_pos enough]

theorem nextBody_short (bytes : List Byte) (length : Int) (short : bytes.length < length) :
    nextBody bytes length = (.ret bytes.length bytes, []) := by
  unfold nextBody
  rw [if_neg (by omega), if_neg (by omega)]

theorem body_done (length : Int) (content unread : List Byte) (plan : List Nat)
    (fits : (content.length : Int) = length) :
    BodyRead (content ++ unread) length (Conn.mk [] unread plan).Flowing
      (.ret length content) ⟨[], unread, plan⟩ := by
  have body : nextBody (content ++ unread) length = (.ret length content, unread) := by
    rw [nextBody_whole _ _ (by omega) (by simp only [List.length_append]; omega)]
    have size : length.toNat = content.length := by omega
    rw [size, List.take_left, List.drop_left]
  refine ⟨?_, fun _ => body, fun flowing => flowing⟩
  intro request same
  cases same
  exact body

theorem body_cut (length : Int) (content unread : List Byte) (plan : List Nat) (flowing : Prop)
    (high : length < 2 ^ 31) (more : (content.length : Int) < length)
    (dry : flowing → unread = [] ∧ (Conn.mk [] unread plan).Flowing) :
    BodyRead (content ++ unread) length flowing
      (.ret (toInt (length - (length - content.length))) content) ⟨[], unread, plan⟩ := by
  have count : toInt (length - (length - content.length)) = content.length := by
    rw [toInt_eq _ (by omega) (by omega)]
    omega
  rw [count]
  refine ⟨?_, ?_, fun running => (dry running).2⟩
  · intro request same
    cases same
    omega
  · intro running
    rw [(dry running).1, List.append_nil]
    rw [nextBody_short _ _ more]
    rfl

/-- What is already in `content` and what is still unread are together the bytes
the body is cut from, and `left` is what `content` lacks. -/
theorem body_loop_spec (plan : List Nat) (length : Int) (content unread : List Byte)
    (high : length < 2 ^ 31) (room : (content.length : Int) ≤ length)
    (clean : ∀ taken, unread =
      taken ++ (body_loop length content (length - content.length) unread plan).2.unread →
        0 ∉ taken) :
    BodyRead (content ++ unread) length (Conn.mk [] unread plan).Flowing
      (body_loop length content (length - content.length) unread plan).1
      (body_loop length content (length - content.length) unread plan).2 := by
  induction plan generalizing content unread with
  | nil =>
      unfold body_loop
      by_cases more : 0 < length - content.length
      · simp only [more, ↓reduceIte]
        refine body_cut length content unread [] _ high (by omega) ?_
        intro flowing
        exact ⟨List.length_eq_zero_iff.mp (Nat.le_zero.mp flowing.2), flowing⟩
      · simp only [more, ↓reduceIte]
        exact body_done length content unread [] (by omega)
  | cons size later ih =>
      unfold body_loop at clean ⊢
      by_cases more : 0 < length - content.length
      · simp only [more, ↓reduceIte] at clean ⊢
        by_cases nothing : (read_data size unread
            (min (length - content.length).toNat readBufSize)).1 = []
        · simp only [nothing, ↓reduceIte]
          refine body_cut length content unread later _ high (by omega) ?_
          intro flowing
          exact flowing_dry [] unread size later _ (by unfold readBufSize; omega) flowing nothing []
        · simp only [nothing, ↓reduceIte] at clean ⊢
          generalize sized : min (length - content.length).toNat readBufSize = room at *
          have joined := read_data_split size unread room
          obtain ⟨taken, split⟩ := body_loop_unread later length
            (content ++ cstr (read_data size unread room).1)
            (length - content.length - (read_data size unread room).1.length)
            (read_data size unread room).2
          have chunk : 0 ∉ (read_data size unread room).1 := by
            intro zero
            refine clean ((read_data size unread room).1 ++ taken) ?_
              (List.mem_append_left _ zero)
            rw [List.append_assoc, ← split, joined]
          have bounded : (read_data size unread room).1.length ≤ room := by
            unfold read_data
            simp only [List.length_take]
            omega
          -- Without a zero byte the chunk counts in full, so `left` keeps its meaning.
          rw [cstr_eq _ chunk] at clean ⊢
          have left : length - content.length - (read_data size unread room).1.length =
              length - (content ++ (read_data size unread room).1).length := by
            simp only [List.length_append]
            omega
          rw [left] at clean ⊢
          have tail := ih (content ++ (read_data size unread room).1)
            (read_data size unread room).2
            (by simp only [List.length_append]; omega)
            (fun later split zero => clean ((read_data size unread room).1 ++ later)
              (by rw [List.append_assoc, ← split, joined]) (List.mem_append_right _ zero))
          rw [List.append_assoc, joined] at tail
          have flows (flowing : (Conn.mk [] unread (size :: later)).Flowing) :=
            flowing_read [] unread size later room flowing nothing []
          exact ⟨tail.whole, fun flowing => tail.exact (flows flowing),
            fun flowing => tail.flows (flows flowing)⟩
      · simp only [more, ↓reduceIte]
        exact body_done length content unread (size :: later) (by omega)

def Fits (conn : Conn) (length : Int) : Prop :=
  -2 ^ 31 ≤ length - conn.read_buf.length ∧ length < 2 ^ 31

theorem readn_unread (conn : Conn) (length : Int) :
    ∃ taken, conn.unread = taken ++ (readn_timeout conn length).2.unread := by
  unfold readn_timeout
  dsimp only
  split
  · split <;> exact ⟨[], rfl⟩
  · exact body_loop_unread conn.plan length conn.read_buf _ conn.unread

theorem readn_spec (conn after : Conn) (length : Int) (result : BodyResult)
    (fits : Fits conn length) (ran : readn_timeout conn length = (result, after))
    (clean : CleanReads conn after) :
    BodyRead conn.pending length conn.Flowing result after := by
  unfold readn_timeout at ran
  obtain ⟨low, high⟩ := fits
  rw [toInt_eq _ low (by omega)] at ran
  dsimp only at ran
  by_cases surplus : length - conn.read_buf.length < 0
  · rw [if_pos surplus] at ran
    -- A negative length reaches `substr` as a huge position, which throws.
    by_cases negative : length < 0
    · rw [substr, if_neg (by omega)] at ran
      cases ran
      have refused : nextBody conn.pending length = (.out_of_range, conn.pending) := by
        unfold nextBody
        rw [if_pos negative]
      exact ⟨fun _ wrong => (by cases wrong), fun _ => refused, fun flowing => flowing⟩
    · rw [substr, if_pos (by omega)] at ran
      cases ran
      have body : nextBody conn.pending length = (.ret length (substrTo conn.read_buf length),
          conn.read_buf.drop length.toNat ++ conn.unread) := by
        unfold Conn.pending
        rw [nextBody_whole _ _ (by omega) (by simp only [List.length_append]; omega), substrTo,
          if_pos (by omega), List.take_append_of_le_length (by omega),
          List.drop_append_of_le_length (by omega)]
      refine ⟨?_, fun _ => body, fun flowing => flowing⟩
      intro request same
      cases same
      exact body
  · rw [if_neg surplus] at ran
    have spec := body_loop_spec conn.plan length conn.read_buf conn.unread high (by omega)
      (by rw [ran]; exact clean)
    rw [ran] at spec
    exact spec

end Body

/-! One call. Its two loops share the kernel's bytes, so clean reads of the call
are clean reads of each. -/

/-- The `int` arithmetic that a call does on an accepted length is exact. -/
def CallFits (info : List Byte → Option Int) (conn : Conn) : Prop :=
  ∀ http mid length, read_http_header_timeout conn = (.complete http, mid) →
    verdict info http = some length → Fits mid length

/-- An accepted length is not negative and, with the bytes already buffered,
fits in `int`. -/
abbrev LengthsFit (info : List Byte → Option Int) (conn : Conn) : Prop :=
  ∀ found ∈ opened conn, ∀ length ∈ info found.1,
    0 ≤ length ∧ length + found.2.read_buf.length < 2 ^ 31

theorem verdict_info (info : List Byte → Option Int) (http : List Byte) (length : Int)
    (accepted : verdict info http = some length) : info http = some length := by
  unfold verdict at accepted
  split at accepted
  · cases accepted
  · exact accepted

theorem lengths_fit (info : List Byte → Option Int) (conn : Conn)
    (fits : LengthsFit info conn) : CallFits info conn := by
  intro http mid length ran accepted
  have found : (http, mid) ∈ opened conn := by simp [opened, ran]
  obtain ⟨low, high⟩ := fits (http, mid) found length (verdict_info info http length accepted)
  dsimp only at high
  exact ⟨by omega, by omega⟩

theorem read_header_unread (conn : Conn) :
    ∃ taken, conn.unread = taken ++ (read_http_header_timeout conn).2.unread :=
  header_loop_unread conn.plan conn.read_buf conn.unread

theorem clean_parts (first middle last : Conn) (clean : CleanReads first last)
    (early : ∃ taken, first.unread = taken ++ middle.unread)
    (late : ∃ taken, middle.unread = taken ++ last.unread) :
    CleanReads first middle ∧ CleanReads middle last := by
  obtain ⟨head, headSplit⟩ := early
  obtain ⟨tail, tailSplit⟩ := late
  have whole := clean (head ++ tail) (by rw [List.append_assoc, ← tailSplit, headSplit])
  simp only [List.mem_append, not_or] at whole
  constructor
  · intro taken split
    have same := List.append_cancel_right (headSplit.symm.trans split)
    exact same ▸ whole.1
  · intro taken split
    have same := List.append_cancel_right (tailSplit.symm.trans split)
    exact same ▸ whole.2

theorem recv_unread (info : List Byte → Option Int) (conn : Conn) :
    ∃ taken, conn.unread = taken ++ (recv_request info conn).2.unread := by
  obtain ⟨head, headSplit⟩ := read_header_unread conn
  unfold recv_request
  split
  · rename_i after ran
    exact ⟨head, by rw [headSplit, ran]⟩
  · rename_i after ran
    exact ⟨head, by rw [headSplit, ran]⟩
  · rename_i http after ran
    split
    · exact ⟨head, by rw [headSplit, ran]⟩
    · rename_i length _
      obtain ⟨tail, tailSplit⟩ := readn_unread after length
      refine ⟨head ++ tail, ?_⟩
      rw [ran] at headSplit
      rw [headSplit, tailSplit, List.append_assoc]
      split
      · rename_i body
        rw [body]
      · rename_i body
        rw [body]
        split <;> rfl

structure CallRead (info : List Byte → Option Int) (conn : Conn) (outcome : Outcome)
    (after : Conn) : Prop where
  taken : outcome.rearmed = true → frame info conn.pending = (outcome, after.pending)
  exact : conn.Flowing → frame info conn.pending = (outcome, after.pending)
  flows : conn.Flowing → after.Flowing

theorem nextHeader_found (bytes rest : List Byte) (result : HeaderResult)
    (found : cut_header bytes = some (result, rest)) : nextHeader bytes = (result, rest) := by
  rw [nextHeader, found]
  rfl

theorem recv_spec (info : List Byte → Option Int) (conn after : Conn) (outcome : Outcome)
    (ran : recv_request info conn = (outcome, after)) (clean : CleanReads conn after)
    (fits : CallFits info conn) : CallRead info conn outcome after := by
  unfold recv_request at ran
  cases header : read_http_header_timeout conn with
  | mk result mid =>
      rw [header] at ran
      have early : ∃ taken, conn.unread = taken ++ mid.unread := by
        have split := read_header_unread conn
        rwa [header] at split
      cases result with
      | error =>
          cases ran
          have spec := read_header_spec conn after .error header clean
          have ends (flowing : conn.Flowing) :
              frame info conn.pending = (.disconnect none, after.pending) := by
            unfold frame nextHeader
            rw [spec.drained flowing rfl, spec.kept rfl]
            rfl
          exact ⟨fun wrong => (by cases wrong), ends, spec.flows⟩
      | out_of_range =>
          cases ran
          have spec := read_header_spec conn after .out_of_range header clean
          have ends : frame info conn.pending = (.out_of_range, after.pending) := by
            unfold frame
            rw [nextHeader_found _ _ _ (spec.found (by simp))]
          exact ⟨fun _ => ends, fun _ => ends, spec.flows⟩
      | complete http =>
          dsimp only at ran
          cases accepted : verdict info http with
          | none =>
              rw [accepted] at ran
              cases ran
              have spec := read_header_spec conn after _ header clean
              have ends : frame info conn.pending = (.invalid http, after.pending) := by
                unfold frame
                rw [nextHeader_found _ _ _ (spec.found (by simp))]
                simp only [accepted]
              exact ⟨fun _ => ends, fun _ => ends, spec.flows⟩
          | some length =>
              rw [accepted] at ran
              dsimp only at ran
              cases body : readn_timeout mid length with
              | mk read last =>
                  rw [body] at ran
                  have late : ∃ taken, mid.unread = taken ++ last.unread := by
                    have split := readn_unread mid length
                    rwa [body] at split
                  have final : after = last := by
                    cases read with
                    | out_of_range => cases ran; rfl
                    | ret count request =>
                        dsimp only at ran
                        split at ran <;> cases ran <;> rfl
                  subst final
                  -- The bytes read are the header's and then the body's; none of either is zero.
                  obtain ⟨headClean, bodyClean⟩ := clean_parts conn mid after clean early late
                  have headSpec := read_header_spec conn mid _ header headClean
                  have bodySpec := readn_spec mid after length read
                    (fits http mid length header accepted) body bodyClean
                  have opened := nextHeader_found _ _ _ (headSpec.found (by simp))
                  refine ⟨?_, ?_, fun flowing => bodySpec.flows (headSpec.flows flowing)⟩
                  · intro rearmed
                    cases read with
                    | out_of_range => cases ran; cases rearmed
                    | ret count request =>
                        dsimp only at ran
                        split at ran
                        · rename_i whole
                          subst whole
                          cases ran
                          unfold frame
                          rw [opened]
                          simp only [accepted, bodySpec.whole request rfl, ↓reduceIte]
                        · cases ran
                          cases rearmed
                  · intro flowing
                    unfold frame
                    rw [opened]
                    simp only [accepted, bodySpec.exact (headSpec.flows flowing)]
                    cases read with
                    | out_of_range => cases ran; rfl
                    | ret count request =>
                        dsimp only at ran ⊢
                        split at ran <;> rename_i whole <;> cases ran <;> simp [whole]

/-! Successive calls. A call that gives the descriptor back leaves a suffix of
the bytes it found, so every later call works on a suffix of the first. -/

theorem nextHeader_suffix (bytes : List Byte) : (nextHeader bytes).2 <:+ bytes := by
  unfold nextHeader
  cases found : bytes.dropInfix? crlfcrlf with
  | none => simp [cut_missing bytes found]
  | some parts =>
      rw [cut_found _ _ _ found]
      split
      · split
        · exact List.suffix_refl bytes
        · exact List.drop_suffix _ bytes
      · exact List.suffix_refl bytes

theorem nextBody_suffix (bytes : List Byte) (length : Int) :
    (nextBody bytes length).2 <:+ bytes := by
  unfold nextBody
  split
  · exact List.suffix_refl bytes
  · split
    · exact List.drop_suffix _ bytes
    · exact List.nil_suffix

theorem frame_suffix (info : List Byte → Option Int) (bytes : List Byte) :
    (frame info bytes).2 <:+ bytes := by
  have head := nextHeader_suffix bytes
  unfold frame
  split
  · rename_i opened
    rwa [opened] at head
  · rename_i opened
    rwa [opened] at head
  · rename_i opened
    rw [opened] at head
    split
    · exact head
    · rename_i length _
      have body := (nextBody_suffix _ length).trans head
      split
      · rename_i cut
        rwa [cut] at body
      · rename_i cut
        rw [cut] at body
        split <;> exact body

theorem calls_taken (info : List Byte → Option Int) (count : Nat) (conn : Conn)
    (clean : ∀ call ∈ calls info count conn, CleanReads call.before call.after)
    (fits : ∀ call ∈ calls info count conn, CallFits info call.before) :
    ∀ call ∈ calls info count conn,
      CallRead info call.before call.outcome call.after ∧
        call.before.pending <:+ conn.pending := by
  induction count generalizing conn with
  | zero => simp [calls]
  | succ count ih =>
      cases ran : recv_request info conn with
      | mk outcome after =>
          simp only [calls, ran, List.mem_cons, forall_eq_or_imp] at clean fits ⊢
          have spec := recv_spec info conn after outcome ran clean.1 fits.1
          refine ⟨⟨spec, List.suffix_refl _⟩, ?_⟩
          intro call member
          by_cases rearmed : outcome.rearmed = true
          · simp only [rearmed, ↓reduceIte] at member clean fits
            obtain ⟨read, later⟩ := ih after clean.2 fits.2 call member
            refine ⟨read, later.trans ?_⟩
            have rest := frame_suffix info conn.pending
            rwa [spec.taken rearmed] at rest
          · simp [rearmed] at member

end AsrServer.Framing
