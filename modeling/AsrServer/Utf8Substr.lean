import AsrServer.Utf8Units

/-!
`substr_utf8`: the first `len` units of a text. A text is cut as far as its length, narrowed
to an `int`, reaches.
-/

namespace AsrServer.Utf8Substr

open Bytes JsonContent Utf8Units

def substr_utf8 (src : List Byte) (len : Nat) : Except Ret (List Byte) :=
  (split_units src).map fun ret => (ret.take len).flatten

/-- The text is cut by characters, and cutting it twice is cutting it once. -/
structure Truncates (chars : List Char) (n : Nat) : Prop where
  front : substr_utf8 (utf8 chars) n = .ok (utf8 (chars.take n))
  inside : ∀ result, substr_utf8 (utf8 chars) n = .ok result →
    result <+: utf8 chars ∧ ∃ others, result = utf8 others
  again : ∀ m, (substr_utf8 (utf8 chars) n).bind (substr_utf8 · m) =
    substr_utf8 (utf8 chars) (min n m)

/-- The length as an `int` is that of some characters at the front, and `n` stops inside
them. -/
def Reaches (chars : List Char) (n : Nat) : Prop :=
  ∃ front, front <+: chars ∧ (utf8 front).length = (toInt (utf8 chars).length).toNat ∧
    min n chars.length ≤ front.length

/-! Encoded texts. -/

theorem utf8_append (front back : List Char) : utf8 (front ++ back) = utf8 front ++ utf8 back :=
  List.flatMap_append

theorem utf8_flatten (chars : List Char) : (chars.map String.utf8EncodeChar).flatten = utf8 chars :=
  rfl

theorem utf8_empty (chars : List Char) (empty : (utf8 chars).length = 0) : chars = [] := by
  cases chars with
  | nil => rfl
  | cons char rest =>
      have positive : 0 < (String.utf8EncodeChar char).length :=
        List.length_pos_iff.mpr String.utf8EncodeChar_ne_nil
      rw [utf8_cons, List.length_append] at empty
      omega

theorem take_of_append (front back : List Char) (n : Nat)
    (inside : min n (front ++ back).length ≤ front.length) :
    (front ++ back).take n = front.take n := by
  rw [List.length_append] at inside
  rw [List.take_append]
  rcases Nat.le_total n front.length with within | beyond
  · rw [Nat.sub_eq_zero_of_le within, List.take_zero, List.append_nil]
  · have nothing : back = [] ∨ n = front.length := by
      rcases Nat.eq_zero_or_pos back.length with zero | _
      · exact .inl (List.eq_nil_of_length_eq_zero zero)
      · exact .inr (by omega)
    rcases nothing with rfl | rfl
    · simp
    · simp

/-! The cut. -/

theorem substr_front (front back : List Char) (n : Nat)
    (count : (utf8 front).length = (toInt (utf8 (front ++ back)).length).toNat) :
    substr_utf8 (utf8 (front ++ back)) n = .ok (utf8 (front.take n)) := by
  have units := split_loop_front front (utf8 back)
  rw [substr_utf8, split_units, ← count]
  rw [utf8_append, units, Except.map, ← List.map_take, utf8_flatten]

theorem substr_short (chars : List Char) (n : Nat) (short : (utf8 chars).length < 2 ^ 31) :
    substr_utf8 (utf8 chars) n = .ok (utf8 (chars.take n)) := by
  have count : (utf8 chars).length = (toInt (utf8 (chars ++ [])).length).toNat := by
    rw [List.append_nil, toInt_eq _ (by omega) (by omega), Int.toNat_natCast]
  have cut := substr_front chars [] n count
  rwa [List.append_nil] at cut

theorem substr_result (chars : List Char) (n : Nat) (result : List Byte)
    (ran : substr_utf8 (utf8 chars) n = .ok result) :
    ∃ front, front <+: chars ∧ (utf8 front).length = (toInt (utf8 chars).length).toNat ∧
      result = utf8 (front.take n) := by
  have low := toInt_le (utf8 chars).length
  rcases split_loop_encoded chars (toInt (utf8 chars).length).toNat (by omega) with
    ⟨front, back, rfl, count, units⟩ | failed
  · rw [substr_front front back n count.symm] at ran
    exact ⟨front, ⟨back, rfl⟩, count.symm, (Except.ok.inj ran).symm⟩
  · rw [substr_utf8, split_units, failed] at ran
    cases ran

theorem truncated_iff (chars : List Char) (n : Nat) :
    substr_utf8 (utf8 chars) n = .ok (utf8 (chars.take n)) ↔ Reaches chars n := by
  constructor
  · intro ran
    obtain ⟨front, ⟨back, rfl⟩, count, same⟩ := substr_result chars n _ ran
    refine ⟨front, ⟨back, rfl⟩, count, ?_⟩
    -- The characters behind `front` that `n` asks for take no bytes.
    have lengths := congrArg List.length same
    rw [List.take_append, utf8_append, List.length_append] at lengths
    have empty := utf8_empty (back.take (n - front.length)) (by omega)
    have missing := congrArg List.length empty
    rw [List.length_take, List.length_nil] at missing
    rw [List.length_append]
    omega
  · rintro ⟨front, ⟨back, rfl⟩, count, inside⟩
    rw [substr_front front back n count, take_of_append front back n inside]

/-- A text is cut by characters if and only if its length as an `int` reaches the cut. -/
theorem truncates_iff (chars : List Char) (n : Nat) : Truncates chars n ↔ Reaches chars n := by
  constructor
  · intro cut
    exact (truncated_iff chars n).mp cut.front
  · intro reaches
    have first := (truncated_iff chars n).mpr reaches
    refine ⟨first, ?_, ?_⟩
    · intro result ran
      rw [first] at ran
      cases ran
      refine ⟨⟨utf8 (chars.drop n), ?_⟩, chars.take n, rfl⟩
      rw [← utf8_append, List.take_append_drop]
    · intro m
      obtain ⟨front, ⟨back, rfl⟩, count, inside⟩ := reaches
      have high := toInt_high (utf8 (front ++ back)).length
      rw [take_of_append front back n inside] at first
      -- What is left is no longer than the part that the length reaches.
      have short : (utf8 (front.take n)).length < 2 ^ 31 := by
        have parts := congrArg (fun chars => (utf8 chars).length) (List.take_append_drop n front)
        simp only [utf8_append, List.length_append] at parts
        omega
      rw [first, Except.bind, substr_short _ m short, substr_front front back (min n m) count,
        List.take_take, Nat.min_comm]

/-- A text of 2^31 bytes has a negative length, and nothing is returned. -/
theorem long_text_lost :
    ¬ Truncates (List.replicate (2 ^ 31) 'a') 1 := by
  intro cut
  have encoded (count : Nat) : (utf8 (List.replicate count 'a')).length = count := by
    induction count with
    | zero => rfl
    | succ count ih =>
        have one : (String.utf8EncodeChar 'a').length = 1 := by decide
        rw [List.replicate_succ, utf8_cons, List.length_append, ih, one]
        omega
  obtain ⟨front, _, count, inside⟩ := (truncated_iff _ 1).mp cut.front
  have negative := toInt_wraps (2 ^ 31 : Nat) (by decide) (by decide)
  rw [encoded, Int.toNat_of_nonpos (by omega)] at count
  rw [utf8_empty front count, List.length_replicate] at inside
  exact absurd inside (by decide)

end AsrServer.Utf8Substr
