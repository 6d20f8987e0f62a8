import AsrServer.Bytes
import AsrServer.JsonContent

/-!
The loop that `substr_utf8` and `format_json_string` share: a string cut into UTF-8
units, or the end of the process. `char` is signed, and a string is followed by a NUL.
-/

namespace AsrServer.Utf8Units

open Bytes JsonContent

/-- `RET_ILSEQ` and `RET_TOOFEW`: a line on standard output and `exit(1)`. -/
inductive Ret where
  | ILSEQ
  | TOOFEW
  deriving DecidableEq, Repr

/-- `(char ^ 0x80) < 0x40`, with the `char` promoted to `int`. -/
def continues (byte : Byte) : Bool := (byte.toInt8.toInt32 ^^^ 0x80) < 0x40

/-- The branch for units of `size` bytes, with `n` bytes left and the test of its own. -/
def tails (size n : Nat) (sin : List Byte) (lead : Bool) : Except Ret Nat :=
  if n < size then .error .TOOFEW
  else if (List.range' 1 (size - 1)).all (fun k => continues (sin.getD k 0)) && lead then .ok size
  else .error .ILSEQ

/-- `size` for the unit at the front of `sin`, of which `n = l - p` bytes count. -/
def unit_size (n : Nat) (sin : List Byte) : Except Ret Nat :=
  let c := sin.getD 0 0
  let cc := sin.getD 1 0
  if c < 0x80 then .ok 1
  else if c < 0xc2 then .error .ILSEQ
  else if c < 0xe0 then tails 2 n sin true
  else if c < 0xf0 then tails 3 n sin (0xe1 ≤ c || 0xa0 ≤ cc)
  else if c < 0xf8 then tails 4 n sin (0xf1 ≤ c || 0x90 ≤ cc)
  else if c < 0xfc then tails 5 n sin (0xfd ≤ c || 0x88 ≤ cc)
  else if c < 0xfe then tails 6 n sin (0xfd ≤ c || 0x84 ≤ cc)
  else .error .ILSEQ

theorem tails_positive (size n : Nat) (sin : List Byte) (lead : Bool) (positive : 0 < size) :
    ∀ found, tails size n sin lead = .ok found → 0 < found := by
  intro found ran
  unfold tails at ran
  repeat' split at ran
  · cases ran
  · cases ran
    exact positive
  · cases ran

theorem unit_size_positive (n : Nat) (sin : List Byte) (size : Nat)
    (ran : unit_size n sin = .ok size) : 0 < size := by
  unfold unit_size at ran
  dsimp only at ran
  repeat' split at ran
  all_goals first | exact tails_positive _ _ _ _ (by decide) _ ran | (cases ran; decide) | cases ran

def split_loop (n : Nat) (sin : List Byte) : Except Ret (List (List Byte)) :=
  if n = 0 then .ok []
  else
    match _sized : unit_size n sin with
    | .error ret => .error ret
    | .ok size => (split_loop (n - size) (sin.drop size)).map (sin.take size :: ·)
termination_by n
decreasing_by
  have positive := unit_size_positive n sin size _sized
  omega

/-- `ret` behind the loop; the length is narrowed to an `int`. -/
def split_units (src : List Byte) : Except Ret (List (List Byte)) :=
  split_loop (toInt src.length).toNat src

/-! One unit. -/

/-- The test for a continuation byte passes every byte that is not ASCII. -/
theorem continues_eq (byte : Byte) : continues byte = decide (0x80 ≤ byte) := by
  revert byte
  exact forall_byte (by decide +kernel)

theorem tails_eq (size n : Nat) (sin : List Byte) (lead : Bool)
    (tails_follow : ∀ k, 1 ≤ k → k < size → 0x80 ≤ sin.getD k 0) (led : lead = true) :
    tails size n sin lead = if n < size then .error .TOOFEW else .ok size := by
  have all : (List.range' 1 (size - 1)).all (fun k => continues (sin.getD k 0)) = true := by
    rw [List.all_eq_true]
    intro k member
    rw [List.mem_range'_1] at member
    rw [continues_eq, decide_eq_true_eq]
    exact tails_follow k member.1 (by omega)
  rw [tails, all, led]
  rfl

theorem unit_one (n : Nat) (c : Byte) (rest : List Byte) (ascii : c < 0x80) :
    unit_size n (c :: rest) = .ok 1 :=
  if_pos ascii

theorem unit_two (n : Nat) (c b : Byte) (rest : List Byte) (low : 0xc2 ≤ c) (high : c < 0xe0)
    (first : 0x80 ≤ b) :
    unit_size n (c :: b :: rest) = if n < 2 then .error .TOOFEW else .ok 2 := by
  have many : ¬ c < 0x80 := by grind
  have started : ¬ c < 0xc2 := by grind
  simp only [unit_size, List.getD_cons_zero, many, started, high, ↓reduceIte]
  refine tails_eq 2 n _ _ (fun k start stop => ?_) rfl
  obtain rfl : k = 1 := by omega
  exact first

theorem unit_three (n : Nat) (c b a : Byte) (rest : List Byte) (low : 0xe0 ≤ c) (high : c < 0xf0)
    (first : 0x80 ≤ b) (second : 0x80 ≤ a) (long : 0xe1 ≤ c ∨ 0xa0 ≤ b) :
    unit_size n (c :: b :: a :: rest) = if n < 3 then .error .TOOFEW else .ok 3 := by
  have many : ¬ c < 0x80 := by grind
  have started : ¬ c < 0xc2 := by grind
  have more : ¬ c < 0xe0 := by grind
  simp only [unit_size, List.getD_cons_zero, many, started, more, high, ↓reduceIte]
  refine tails_eq 3 n _ _ (fun k start stop => ?_) (by simpa using long)
  obtain rfl | rfl : k = 1 ∨ k = 2 := by omega
  · exact first
  · exact second

theorem unit_four (n : Nat) (c b a z : Byte) (rest : List Byte) (low : 0xf0 ≤ c)
    (high : c < 0xf8) (first : 0x80 ≤ b) (second : 0x80 ≤ a) (third : 0x80 ≤ z)
    (long : 0xf1 ≤ c ∨ 0x90 ≤ b) :
    unit_size n (c :: b :: a :: z :: rest) = if n < 4 then .error .TOOFEW else .ok 4 := by
  have many : ¬ c < 0x80 := by grind
  have started : ¬ c < 0xc2 := by grind
  have more : ¬ c < 0xe0 := by grind
  have most : ¬ c < 0xf0 := by grind
  simp only [unit_size, List.getD_cons_zero, many, started, more, most, high, ↓reduceIte]
  refine tails_eq 4 n _ _ (fun k start stop => ?_) (by simpa using long)
  obtain rfl | rfl | rfl : k = 1 ∨ k = 2 ∨ k = 3 := by omega
  · exact first
  · exact second
  · exact third

/-- The unit at the front of an encoded text is the encoding of its first character. -/
theorem unit_size_encoded (char : Char) (n : Nat) (rest : List Byte) (positive : 0 < n) :
    unit_size n (String.utf8EncodeChar char ++ rest) =
      if n < (String.utf8EncodeChar char).length then .error .TOOFEW
      else .ok (String.utf8EncodeChar char).length := by
  have last : char.val.toNat ≤ 0x10ffff := by
    rcases char.valid with low | high
    · exact Nat.le_trans (Nat.le_of_lt low) (by decide)
    · exact Nat.le_of_lt_succ high.2
  fun_cases String.utf8EncodeChar char with
  | case1 v one =>
      have ascii : UInt8.ofNat v < 0x80 := by
        simp [UInt8.lt_iff_toNat_lt]
        omega
      rw [List.singleton_append, unit_one _ _ _ ascii, List.length_singleton, if_neg (by omega)]
  | case2 v more two =>
      refine unit_two n _ _ rest ?_ ?_ ?_
      all_goals
        simp [UInt8.lt_iff_toNat_lt, UInt8.le_iff_toNat_le]
        omega
  | case3 v more most three =>
      refine unit_three n _ _ _ rest ?_ ?_ ?_ ?_ ?_
      all_goals
        simp [UInt8.lt_iff_toNat_lt, UInt8.le_iff_toNat_le]
        omega
  | case4 v more most four =>
      refine unit_four n _ _ _ _ rest ?_ ?_ ?_ ?_ ?_ ?_
      all_goals
        simp [UInt8.lt_iff_toNat_lt, UInt8.le_iff_toNat_le]
        omega

/-! The loop. -/

theorem split_loop_zero (sin : List Byte) : split_loop 0 sin = .ok [] := by
  rw [split_loop, if_pos rfl]

theorem split_loop_error (n : Nat) (sin : List Byte) (ret : Ret) (positive : 0 < n)
    (sized : unit_size n sin = .error ret) : split_loop n sin = .error ret := by
  rw [split_loop, if_neg (by omega)]
  split
  · rename_i other
    rw [sized] at other
    cases other
    rfl
  · rename_i other
    rw [sized] at other
    cases other

theorem split_loop_ok (n : Nat) (sin : List Byte) (size : Nat) (positive : 0 < n)
    (sized : unit_size n sin = .ok size) :
    split_loop n sin = (split_loop (n - size) (sin.drop size)).map (sin.take size :: ·) := by
  rw [split_loop, if_neg (by omega)]
  split
  · rename_i other
    rw [sized] at other
    cases other
  · rename_i other
    rw [sized] at other
    cases other
    rfl

/-- The first `n` bytes of an encoded text are cut into the encodings of its characters, or
a character is cut in two. -/
theorem split_loop_encoded (chars : List Char) (n : Nat) (inside : n ≤ (utf8 chars).length) :
    (∃ front back, chars = front ++ back ∧ n = (utf8 front).length ∧
      split_loop n (utf8 chars) = .ok (front.map String.utf8EncodeChar)) ∨
    split_loop n (utf8 chars) = .error .TOOFEW := by
  -- On the characters: the first is cut in two, or taken as a unit.
  induction chars generalizing n with
  | nil =>
      simp only [utf8_nil, List.length_nil, Nat.le_zero] at inside
      subst inside
      exact .inl ⟨[], [], rfl, rfl, split_loop_zero _⟩
  | cons char chars ih =>
      rcases Nat.eq_zero_or_pos n with rfl | positive
      · exact .inl ⟨[], char :: chars, rfl, rfl, split_loop_zero _⟩
      · have sized := unit_size_encoded char n (utf8 chars) positive
        rw [utf8_cons] at inside ⊢
        rw [List.length_append] at inside
        by_cases short : n < (String.utf8EncodeChar char).length
        · rw [if_pos short] at sized
          exact .inr (split_loop_error _ _ _ positive sized)
        · rw [if_neg short] at sized
          rw [split_loop_ok _ _ _ positive sized, List.drop_left, List.take_left]
          rcases ih (n - (String.utf8EncodeChar char).length) (by omega) with
            ⟨front, back, rfl, count, ran⟩ | failed
          · refine .inl ⟨char :: front, back, rfl, ?_, ?_⟩
            · rw [utf8_cons, List.length_append]
              omega
            · rw [ran]
              rfl
          · rw [failed]
            exact .inr rfl

theorem split_loop_front (chars : List Char) (rest : List Byte) :
    split_loop (utf8 chars).length (utf8 chars ++ rest) =
      .ok (chars.map String.utf8EncodeChar) := by
  induction chars with
  | nil => exact split_loop_zero _
  | cons char chars ih =>
      have positive : 0 < (String.utf8EncodeChar char).length :=
        List.length_pos_iff.mpr String.utf8EncodeChar_ne_nil
      have sized := unit_size_encoded char (utf8 (char :: chars)).length (utf8 chars ++ rest) (by
        rw [utf8_cons, List.length_append]
        omega)
      rw [utf8_cons, List.length_append, if_neg (by omega)] at sized
      rw [utf8_cons, List.length_append, List.append_assoc, split_loop_ok _ _ _ (by omega) sized,
        List.drop_left, List.take_left, Nat.add_sub_cancel_left, ih]
      rfl

theorem split_loop_whole (chars : List Char) :
    split_loop (utf8 chars).length (utf8 chars) = .ok (chars.map String.utf8EncodeChar) := by
  have whole := split_loop_front chars []
  rwa [List.append_nil] at whole

end AsrServer.Utf8Units
