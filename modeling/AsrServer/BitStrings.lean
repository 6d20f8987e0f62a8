import Mathlib.Data.Nat.Bitwise
import Mathlib.Data.List.Basic

/-!
Numbers as strings of bits, the highest first. A string of bits may be cut at any place, and the
bits of a number do not depend on what stands above them.
-/

namespace AsrServer.BitStrings

def bits : Nat → Nat → List Bool
  | 0, _ => []
  | width + 1, value => value.testBit width :: bits width value

def value (string : List Bool) : Nat := string.foldl (fun high bit => 2 * high + bit.toNat) 0

/-- The numbers in a string that is cut every `width` bits. -/
def words (width count : Nat) (string : List Bool) : List Nat :=
  (List.range count).map fun place => value ((string.drop (width * place)).take width)

theorem bits_length (width number : Nat) : (bits width number).length = width := by
  induction width with
  | zero => rfl
  | succ width ih => rw [bits, List.length_cons, ih]

theorem bits_mod (width number : Nat) : bits width (number % 2 ^ width) = bits width number := by
  have low (width bound : Nat) (below : width ≤ bound) :
      bits width (number % 2 ^ bound) = bits width number := by
    induction width with
    | zero => rfl
    | succ width ih =>
        rw [bits, bits, ih (by omega), Nat.testBit_mod_two_pow, decide_eq_true (by omega),
          Bool.true_and]
  exact low width width le_rfl

theorem bits_congr {width first second : Nat}
    (same : first % 2 ^ width = second % 2 ^ width) : bits width first = bits width second := by
  rw [← bits_mod, same, bits_mod]

theorem bits_add (high low number : Nat) :
    bits (high + low) number = bits high (number / 2 ^ low) ++ bits low number := by
  induction high with
  | zero => simp [bits]
  | succ high ih =>
      rw [Nat.succ_add, bits, bits, ih, Nat.testBit_div_two_pow, List.cons_append, Nat.add_comm]

theorem bits_regroup (high middle low first second : Nat) (small : second < 2 ^ (middle + low)) :
    bits high first ++ bits (middle + low) second =
      bits (high + middle) (first * 2 ^ middle + second / 2 ^ low) ++ bits low second := by
  have upper : second / 2 ^ low < 2 ^ middle := by
    rw [Nat.div_lt_iff_lt_mul (Nat.two_pow_pos low), ← Nat.pow_add]
    exact small
  have quotient : (first * 2 ^ middle + second / 2 ^ low) / 2 ^ middle = first := by
    rw [Nat.mul_comm, Nat.mul_add_div (Nat.two_pow_pos middle), Nat.div_eq_of_lt upper,
      Nat.add_zero]
  have remainder : bits middle (first * 2 ^ middle + second / 2 ^ low) =
      bits middle (second / 2 ^ low) := by
    apply bits_congr
    rw [Nat.mul_comm, Nat.mul_add_mod]
  rw [bits_add middle low second, bits_add high middle, quotient, remainder, List.append_assoc]

theorem value_append (string : List Bool) (last : Bool) :
    value (string ++ [last]) = 2 * value string + last.toNat := by
  rw [value, List.foldl_append]
  rfl

theorem value_bits (width number : Nat) : value (bits width number) = number % 2 ^ width := by
  induction width generalizing number with
  | zero => simp [bits, value, Nat.mod_one]
  | succ width ih =>
      have last : (number.testBit 0).toNat = number % 2 := by
        rw [Nat.testBit_zero]
        rcases Nat.mod_two_eq_zero_or_one number with even | odd
        · simp [even]
        · simp [odd]
      have parts : number % (2 * 2 ^ width) = number % 2 + 2 * (number / 2 % 2 ^ width) :=
        Nat.mod_mul
      rw [bits_add width 1 number, bits, bits, value_append, ih, last, pow_one, Nat.pow_succ',
        parts, Nat.add_comm]

theorem words_cons (width count number : Nat) (rest : List Bool) :
    words width (count + 1) (bits width number ++ rest) =
      number % 2 ^ width :: words width count rest := by
  have size := bits_length width number
  simp only [words, List.range_succ_eq_map, List.map_cons, List.map_map]
  congr 1
  · rw [Nat.mul_zero, List.drop_zero, List.take_left' size, value_bits]
  · apply List.map_congr_left
    intro place _
    simp only [Function.comp_apply, Nat.succ_eq_add_one, Nat.mul_add, Nat.mul_one]
    rw [Nat.add_comm, ← List.drop_drop, List.drop_left' size]

end AsrServer.BitStrings
