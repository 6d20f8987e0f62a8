import AsrServer.Framing

/-!
How much the read path buffers and how much a body read takes. A read never
leaves 512 bytes or more behind a header: it stops with the first chunk that
completes the terminator. So a length that `GetInfo` stores and the buffer at
that point always subtract within `int`, but for lengths near `INT_MIN`; those
ask for more than a stream of fewer than 2^31 bytes can give.
-/

namespace AsrServer.ReadBounds

open Bytes ReadPath Framing

/-- Whatever stands behind a terminator in the buffer came with one read. -/
def SmallTail (buffer : List Byte) : Prop :=
  ∀ head tail, buffer.dropInfix? crlfcrlf = some (head, tail) → tail.length < readBufSize

theorem small_tail_of_short (buffer : List Byte) (short : buffer.length < readBufSize) :
    SmallTail buffer := by
  intro head tail found
  have lengths := congrArg List.length (Occurrence.split_text _ _ _ _ found)
  simp only [List.length_append, crlfcrlf_length] at lengths
  omega

/-- The offset of the terminator, if the bytes hold one, is within `int`. -/
def OffsetFits (bytes : List Byte) : Prop :=
  ∀ head tail, bytes.dropInfix? crlfcrlf = some (head, tail) → head.length + 4 < 2 ^ 31

theorem offset_fits_front (bytes more : List Byte) (fits : OffsetFits (bytes ++ more)) :
    OffsetFits bytes := by
  intro head tail found
  exact fits head (tail ++ more) (Occurrence.split_append _ _ _ _ more found)

theorem small_tail_append (buffer chunk : List Byte) (fits : OffsetFits buffer)
    (missing : cut_header buffer = none) (size : chunk.length ≤ readBufSize) :
    SmallTail (buffer ++ chunk) := by
  have absent : buffer.dropInfix? crlfcrlf = none := by
    cases found : buffer.dropInfix? crlfcrlf with
    | none => rfl
    | some parts =>
        have short := fits parts.1 parts.2 found
        rw [cut_found _ parts.1 parts.2 found, toInt_eq _ (by omega) (by omega),
          if_pos (by omega)] at missing
        split at missing <;> cases missing
  intro head tail found
  -- The terminator was completed by the chunk, so its end lies inside it.
  have reaches := Occurrence.split_reaches _ _ _ _ _ absent found
  have lengths := congrArg List.length (Occurrence.split_text _ _ _ _ found)
  simp only [List.length_append, crlfcrlf_length] at lengths reaches
  omega

theorem cut_small (buffer rest http : List Byte) (fits : OffsetFits buffer)
    (small : SmallTail buffer) (cut : cut_header buffer = some (.complete http, rest)) :
    rest.length < readBufSize := by
  cases found : buffer.dropInfix? crlfcrlf with
  | none => simp [cut_missing buffer found] at cut
  | some parts =>
      obtain ⟨head, tail⟩ := parts
      have short := fits head tail found
      have lengths := congrArg List.length (Occurrence.split_text _ _ _ _ found)
      simp only [List.length_append, crlfcrlf_length] at lengths
      rw [cut_found _ head tail found, toInt_eq _ (by omega) (by omega), if_pos (by omega),
        toInt_eq _ (by omega) (by omega), if_neg (by omega)] at cut
      cases cut
      have bound := small head tail found
      simp only [List.length_drop]
      omega

theorem header_loop_small (plan : List Nat) (buffer unread http : List Byte)
    (clean : 0 ∉ unread) (fits : OffsetFits (buffer ++ unread)) (small : SmallTail buffer)
    (complete : (header_loop buffer unread plan).1 = .complete http) :
    (header_loop buffer unread plan).2.read_buf.length < readBufSize := by
  have here := offset_fits_front buffer unread fits
  -- On the plan; the loop goes on only while the buffer has no terminator.
  induction plan generalizing buffer unread with
  | nil =>
      unfold header_loop at complete ⊢
      cases cut : cut_header buffer with
      | none => simp [cut] at complete
      | some parts =>
          simp only [cut] at complete ⊢
          exact cut_small buffer parts.2 http here small (by rw [cut, ← complete])
  | cons size later ih =>
      unfold header_loop at complete ⊢
      cases cut : cut_header buffer with
      | some parts =>
          simp only [cut] at complete ⊢
          exact cut_small buffer parts.2 http here small (by rw [cut, ← complete])
      | none =>
          simp only [cut] at complete ⊢
          by_cases nothing : (read_data size unread readBufSize).1 = []
          · simp [nothing] at complete
          · simp only [nothing, ↓reduceIte] at complete ⊢
            have joined := read_data_split size unread readBufSize
            have parts : 0 ∉ (read_data size unread readBufSize).1 ∧
                0 ∉ (read_data size unread readBufSize).2 := by
              rw [← joined, List.mem_append, not_or] at clean
              exact clean
            rw [cstr_eq _ parts.1] at complete ⊢
            have same : (buffer ++ (read_data size unread readBufSize).1) ++
                (read_data size unread readBufSize).2 = buffer ++ unread := by
              rw [List.append_assoc, joined]
            have further : OffsetFits ((buffer ++ (read_data size unread readBufSize).1) ++
                (read_data size unread readBufSize).2) := by
              rw [same]
              exact fits
            refine ih _ _ parts.2 further ?_ complete (offset_fits_front _ _ further)
            apply small_tail_append buffer _ here cut
            unfold read_data
            simp only [List.length_take]
            omega

theorem body_loop_buffer (plan : List Nat) (buf_len : Int) (content : List Byte) (left : Int)
    (unread : List Byte) : (body_loop buf_len content left unread plan).2.read_buf = [] := by
  induction plan generalizing content left unread with
  | nil =>
      unfold body_loop
      split <;> rfl
  | cons size later ih =>
      unfold body_loop
      split
      · dsimp only
        split
        · rfl
        · exact ih _ _ _
      · rfl

theorem readn_buffer (conn : Conn) (length : Int) :
    (readn_timeout conn length).2.read_buf.length ≤ conn.read_buf.length := by
  unfold readn_timeout
  dsimp only
  split
  · split
    · rename_i rest taken
      unfold substr at taken
      split at taken
      · cases taken
        simp only [List.length_drop]
        omega
      · cases taken
    · exact Nat.le_refl _
  · rw [body_loop_buffer]
    exact Nat.zero_le _

section Calls
variable (info : List Byte → Option Int)

theorem recv_small (conn mid : Conn) (http : List Byte)
    (header : read_http_header_timeout conn = (.complete http, mid))
    (tail : mid.read_buf.length < readBufSize) :
    (recv_request info conn).2.read_buf.length < readBufSize := by
  unfold recv_request
  simp only [header]
  split
  · exact tail
  · rename_i length _
    have buffer := readn_buffer mid length
    split
    · rename_i body
      rw [body] at buffer
      exact Nat.lt_of_le_of_lt buffer tail
    · rename_i body
      rw [body] at buffer
      split <;> exact Nat.lt_of_le_of_lt buffer tail

end Calls

theorem body_loop_starved (plan : List Nat) (buf_len : Int) (content : List Byte) (left : Int)
    (unread : List Byte) (more : (unread.length : Int) < left) (bounded : left < 2 ^ 32)
    (request : List Byte) :
    (body_loop buf_len content left unread plan).1 ≠ .ret buf_len request := by
  have missed (rest : Int) (positive : 0 < rest) (few : rest < 2 ^ 32) :
      toInt (buf_len - rest) ≠ buf_len := by
    unfold toInt
    rw [Int.bmod_def]
    split <;> omega
  induction plan generalizing content left unread with
  | nil =>
      unfold body_loop
      rw [if_pos (by omega)]
      simp only [ne_eq, BodyResult.ret.injEq, not_and]
      exact fun same => absurd same (missed left (by omega) bounded)
  | cons size later ih =>
      unfold body_loop
      rw [if_pos (by omega)]
      dsimp only
      split
      · simp only [ne_eq, BodyResult.ret.injEq, not_and]
        exact fun same => absurd same (missed left (by omega) bounded)
      · have lengths := congrArg List.length
          (read_data_split size unread (min left.toNat readBufSize))
        simp only [List.length_append] at lengths
        exact ih _ _ _ (by omega) (by omega)

theorem readn_whole (conn after : Conn) (length : Int) (request : List Byte)
    (clean : 0 ∉ conn.unread) (small : conn.read_buf.length < readBufSize)
    (bytes : conn.pending.length < 2 ^ 31) (low : -2 ^ 31 ≤ length) (high : length < 2 ^ 31)
    (ran : readn_timeout conn length = (.ret length request, after)) :
    (request.length : Int) = length := by
  unfold readBufSize at small
  by_cases fits : -2 ^ 31 ≤ length - conn.read_buf.length
  · have spec := readn_spec conn after length _ ⟨fits, high⟩ ran (clean_of_unread _ _ clean)
    exact (nextBody_complete _ _ _ _ (spec.whole request rfl)).2
  -- The subtraction wraps only for lengths near `INT_MIN`, into a huge `left`.
  · have wraps : toInt (length - conn.read_buf.length) =
        length - conn.read_buf.length + 2 ^ 32 := by
      unfold toInt
      rw [Int.bmod_def]
      split <;> omega
    unfold Conn.pending at bytes
    simp only [List.length_append] at bytes
    have starved := body_loop_starved conn.plan length conn.read_buf
      (length - conn.read_buf.length + 2 ^ 32) conn.unread (by omega) (by omega) request
    unfold readn_timeout at ran
    simp only [wraps] at ran
    rw [if_neg (by omega)] at ran
    rw [ran] at starved
    exact absurd rfl starved

end AsrServer.ReadBounds
