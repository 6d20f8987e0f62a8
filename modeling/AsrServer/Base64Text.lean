import AsrServer.Base64
import AsrServer.BitStrings

/-!
`base64_decode` on any text: the letters ahead of the first other character are a string of
bits, six each, and what is decoded are its whole bytes. The texts that the encoder
gives back are those it writes.
-/

namespace AsrServer.Base64

open Bytes RequestHeader BitStrings

/-! Letters and their places in `base64_chars`. -/

theorem letters_length : base64_chars.length = 64 := by decide +kernel

theorem letters_nodup : base64_chars.Nodup := by decide +kernel

theorem letter_place (value : Byte) (small : value.toNat < 64) :
    letter value ∈ base64_chars ∧ base64_chars.idxOf (letter value) = value.toNat := by
  have inside : value.toNat < base64_chars.length := by rwa [letters_length]
  rw [letter, List.getD_eq_getElem _ _ inside]
  exact ⟨List.getElem_mem inside, letters_nodup.idxOf_getElem _ inside⟩

theorem member_letter (char : Byte) (member : char ∈ base64_chars) :
    ∃ value : Byte, value.toNat < 64 ∧ letter value = char := by
  obtain ⟨place, inside, same⟩ := List.mem_iff_getElem.mp member
  have small : place < 64 := by rwa [letters_length] at inside
  have number : (UInt8.ofNat place).toNat = place := by
    rw [UInt8.toNat_ofNat', Nat.mod_eq_of_lt (by omega)]
  refine ⟨UInt8.ofNat place, by omega, ?_⟩
  rw [letter, number, List.getD_eq_getElem _ _ inside, same]

theorem sextet_place (char : Byte) (member : char ∈ base64_chars) :
    (sextet char).toNat = base64_chars.idxOf char ∧ letter (sextet char) = char ∧
      (sextet char).toNat < 64 := by
  obtain ⟨value, small, rfl⟩ := member_letter char member
  rw [(letter_sextet value small).1, (letter_place value small).2]
  exact ⟨rfl, rfl, small⟩

theorem is_base64_iff (char : Byte) : is_base64 char = true ↔ char ∈ base64_chars := by
  constructor
  · revert char
    exact forall_byte (by decide +kernel)
  · intro member
    obtain ⟨value, small, rfl⟩ := member_letter char member
    exact (letter_sextet value small).2.1

/-! Groups of letters as bits. -/

def stream (values : List Byte) : List Bool := values.flatMap fun value => bits 6 value.toNat

theorem two_letters (a b : Nat) (small : b < 64) :
    bits 6 a ++ bits 6 b = bits 8 (a * 4 + b / 16) ++ bits 4 b :=
  bits_regroup 6 2 4 a b small

theorem three_letters (b c : Nat) (small : c < 64) :
    bits 4 b ++ bits 6 c = bits 8 (b % 16 * 16 + c / 4) ++ bits 2 c := by
  rw [← bits_mod 4 b]
  exact bits_regroup 4 4 2 (b % 16) c small

theorem four_letters (c d : Nat) (small : d < 64) :
    bits 2 c ++ bits 6 d = bits 8 (c % 4 * 64 + d) := by
  have group := bits_regroup 2 6 0 (c % 4) d small
  rw [← bits_mod 2 c]
  simpa [bits] using group

theorem unpacked_words (values : List Byte) (small : ∀ value ∈ values, value.toNat < 64) :
    (unpacked values).map UInt8.toNat = words 8 (6 * values.length / 8) (stream values) := by
  induction values using unpacked.induct with
  | case1 a b c d rest ih =>
      have inner := ih fun value member => small value (by simp [member])
      have second := small b (by simp)
      have third := small c (by simp)
      have fourth := small d (by simp)
      have count : 6 * (a :: b :: c :: d :: rest).length / 8 =
          6 * rest.length / 8 + 1 + 1 + 1 := by
        simp only [List.length_cons]
        omega
      -- The 24 bits of four values as three bytes: 6 + 2, 4 + 4 and 2 + 6.
      have bits_eq : stream (a :: b :: c :: d :: rest) =
          bits 8 (a.toNat * 4 + b.toNat / 16) ++ (bits 8 (b.toNat % 16 * 16 + c.toNat / 4) ++
            (bits 8 (c.toNat % 4 * 64 + d.toNat) ++ stream rest)) := by
        simp only [stream, List.flatMap_cons]
        rw [← List.append_assoc, two_letters _ _ second, List.append_assoc, ← List.append_assoc
          (bits 4 _), three_letters _ _ third, List.append_assoc, ← List.append_assoc (bits 2 _),
          four_letters _ _ fourth]
      rw [unpacked, List.map_append, octets_toNat, inner, count, bits_eq, words_cons, words_cons,
        words_cons]
      simp only [List.cons_append, List.nil_append, List.cons.injEq, and_true]
      omega
  | case2 a b c =>
      have second := small b (by simp)
      have third := small c (by simp)
      -- Two bits of the third value are left over.
      have bits_eq : stream [a, b, c] = bits 8 (a.toNat * 4 + b.toNat / 16) ++
          (bits 8 (b.toNat % 16 * 16 + c.toNat / 4) ++ bits 2 c.toNat) := by
        simp only [stream, List.flatMap_cons, List.flatMap_nil, List.append_nil]
        rw [← List.append_assoc, two_letters _ _ second, List.append_assoc,
          three_letters _ _ third]
      have count : 6 * [a, b, c].length / 8 = 0 + 1 + 1 := by simp
      rw [unpacked, List.map_take, octets_toNat, count, bits_eq, words_cons, words_cons]
      simp only [List.take_succ_cons, List.take_zero, words, List.range_zero, List.map_nil,
        List.cons.injEq, and_true]
      omega
  | case3 a b =>
      have second := small b (by simp)
      -- Four bits of the second value are left over.
      have bits_eq : stream [a, b] =
          bits 8 (a.toNat * 4 + b.toNat / 16) ++ bits 4 b.toNat := by
        simp only [stream, List.flatMap_cons, List.flatMap_nil, List.append_nil]
        exact two_letters _ _ second
      have count : 6 * [a, b].length / 8 = 0 + 1 := by simp
      rw [unpacked, List.map_take, octets_toNat, count, bits_eq, words_cons]
      simp only [List.take_succ_cons, List.take_zero, words, List.range_zero, List.map_nil,
        List.cons.injEq, and_true]
      omega
  | case4 a => simp [unpacked, words]
  | case5 => rfl

/-! A text and the letters it begins with. -/

def letters (text : List Byte) : List Byte :=
  text.takeWhile fun char => decide (char ∈ base64_chars)

theorem letters_member (text : List Byte) (char : Byte) (member : char ∈ letters text) :
    char ∈ base64_chars := by
  have kept := List.mem_takeWhile_imp member
  exact of_decide_eq_true kept

theorem letters_back (front : List Byte) (plain : ∀ char ∈ front, char ∈ base64_chars) :
    (front.map sextet).map letter = front := by
  rw [List.map_map]
  calc front.map (letter ∘ sextet) = front.map id :=
        List.map_congr_left fun char member => (sextet_place char (plain char member)).2.1
    _ = front := List.map_id front

theorem behind_letters (text : List Byte) (char : Byte)
    (first : char ∈ (text.dropWhile fun char => decide (char ∈ base64_chars)).head?) :
    is_base64 char = false := by
  have foreign := List.head?_dropWhile_not (fun char => decide (char ∈ base64_chars)) text
  rw [Option.mem_def.mp first] at foreign
  have absent := of_decide_eq_false foreign
  rw [← is_base64_iff, Bool.not_eq_true] at absent
  exact absent

theorem stream_letters (front : List Byte) (plain : ∀ char ∈ front, char ∈ base64_chars) :
    stream (front.map sextet) = front.flatMap fun char => bits 6 (base64_chars.idxOf char) := by
  rw [stream, List.flatMap_map]
  apply List.flatMap_congr
  intro char member
  rw [(sextet_place char (plain char member)).1]

theorem base64_decode_letters (text : List Byte) (short : text.length < 2 ^ 31) :
    base64_decode text = unpacked ((letters text).map sextet) := by
  have length := toInt_eq text.length (by omega) (by omega)
  have parts : text = ((letters text).map sextet).map letter ++
      text.dropWhile fun char => decide (char ∈ base64_chars) := by
    rw [letters_back (letters text) (letters_member text)]
    exact List.takeWhile_append_dropWhile.symm
  have small : ∀ value ∈ (letters text).map sextet, value.toNat < 64 := by
    intro value member
    obtain ⟨char, inside, rfl⟩ := List.mem_map.mp member
    exact (sextet_place char (letters_member text char inside)).2.2
  have fits : ((letters text).map sextet).length ≤ (text.length : Int) := by
    rw [List.length_map]
    exact_mod_cast (List.takeWhile_prefix _).length_le
  have decoded := decode_values ((letters text).map sextet) _ [] text.length small fits
    (behind_letters text)
  rw [← parts, List.nil_append] at decoded
  dsimp only [base64_decode]
  rw [length, decoded]

/-- Only letters and at most two `=` at the very end, a multiple of four together, with the
bits behind the last whole byte zero. -/
def Canonical (text : List Byte) : Prop :=
  text.length % 4 = 0 ∧ ∃ front pad, text = front ++ List.replicate pad 61 ∧ pad ≤ 2 ∧
    (∀ char ∈ front, char ∈ base64_chars) ∧
    ∀ last ∈ front.getLast?, base64_chars.idxOf last % 2 ^ (6 * front.length % 8) = 0

/-- The canonical texts are the letters of filled groups. -/
theorem canonical_iff (text : List Byte) : Canonical text ↔
    ∃ values pad, Filled values pad ∧ text = values.map letter ++ List.replicate pad 61 := by
  constructor
  · rintro ⟨whole, front, pad, rfl, short, plain, unused⟩
    refine ⟨front.map sextet, pad, ⟨?_, short, ?_, ?_⟩, by rw [letters_back front plain]⟩
    · intro value member
      obtain ⟨char, inside, rfl⟩ := List.mem_map.mp member
      exact (sextet_place char (plain char inside)).2.2
    · simpa using whole
    · intro last member
      rw [List.getLast?_map, Option.mem_def, Option.map_eq_some_iff] at member
      obtain ⟨char, final, rfl⟩ := member
      rw [(sextet_place char (plain char (List.mem_of_getLast? final))).1, List.length_map]
      exact unused char final
  · rintro ⟨values, pad, filled, rfl⟩
    refine ⟨by simpa using filled.whole, values.map letter, pad, rfl, filled.short, ?_, ?_⟩
    · intro char member
      obtain ⟨value, inside, rfl⟩ := List.mem_map.mp member
      exact (letter_place value (filled.small value inside)).1
    · intro last member
      rw [List.getLast?_map, Option.mem_def, Option.map_eq_some_iff] at member
      obtain ⟨value, final, rfl⟩ := member
      rw [(letter_place value (filled.small value (List.mem_of_getLast? final))).2,
        List.length_map]
      exact filled.unused value final

theorem encode_decode_iff (text : List Byte) (short : text.length < 2 ^ 31) :
    base64_encode (base64_decode text) = text ↔ Canonical text := by
  rw [canonical_iff]
  constructor
  · intro same
    obtain ⟨values, pad, filled, shape, _⟩ := groups_filled (base64_decode text)
    exact ⟨values, pad, filled, by rw [← shape, ← base64_encode_groups, same]⟩
  · rintro ⟨values, pad, filled, rfl⟩
    have written : base64_encode (unpacked values) =
        values.map letter ++ List.replicate pad 61 := by
      rw [base64_encode_groups]
      exact filled_groups values pad filled
    rw [← written] at short ⊢
    rw [base64_round_trip (unpacked values) short]

/-- What is decoded of any text, and which texts are encodings. -/
theorem base64_decode_any (text : List Byte) (short : text.length < 2 ^ 31) :
    base64_decode text =
        (words 8 (6 * (letters text).length / 8)
          ((letters text).flatMap fun char => bits 6 (base64_chars.idxOf char))).map UInt8.ofNat ∧
      (base64_encode (base64_decode text) = text ↔ Canonical text) := by
  refine ⟨?_, encode_decode_iff text short⟩
  have small : ∀ value ∈ (letters text).map sextet, value.toNat < 64 := by
    intro value member
    obtain ⟨char, inside, rfl⟩ := List.mem_map.mp member
    exact (sextet_place char (letters_member text char inside)).2.2
  have numbers := unpacked_words ((letters text).map sextet) small
  rw [List.length_map, stream_letters (letters text) (letters_member text)] at numbers
  rw [base64_decode_letters text short, ← numbers, List.map_map]
  calc unpacked ((letters text).map sextet) = (unpacked ((letters text).map sextet)).map id :=
        (List.map_id _).symm
    _ = (unpacked ((letters text).map sextet)).map (UInt8.ofNat ∘ UInt8.toNat) :=
        List.map_congr_left fun byte _ => (UInt8.ofNat_toNat).symm

/-- A foreign byte in the second group, and bits left over in the first. -/
theorem base64_decode_any_example :
    base64_decode [81, 81, 33, 81] = [65] ∧
      (base64_encode (base64_decode [81, 81, 33, 81]) = [81, 81, 33, 81] ↔
        Canonical [81, 81, 33, 81]) := by
  have any := base64_decode_any [81, 81, 33, 81] (by decide)
  exact ⟨any.1.trans (by decide +kernel), any.2⟩

end AsrServer.Base64
