import Mathlib.Data.BitVec
import Mathlib.Data.List.TakeWhile
import AsrServer.Occurrence

/-!
Byte strings and the C++ operations the server applies to them. A `char` is a
byte; `std::string` is a list of bytes. The operations keep the machine types
of the source: the `size_t` that `find` returns is narrowed to a 32-bit `int` where
the source stores it in one, and a negative `int` handed to `substr` becomes a
`size_t` above every string length.
-/

namespace AsrServer.Bytes

abbrev Byte := UInt8

def text (literal : String) : List Byte :=
  literal.toList.map fun char => UInt8.ofNat char.toNat

def crlfcrlf : List Byte := text "\r\n\r\n"

@[simp] theorem crlfcrlf_length : crlfcrlf.length = 4 := by decide

/-- `std::string::find`; none is `npos`. -/
def find (string pattern : List Byte) : Option Nat :=
  match string.dropInfix? pattern with
  | some (before, _) => some before.length
  | none => none

/-- `string.find(pattern, pos)`; a negative `int` position is one behind the end. -/
def findFrom (string pattern : List Byte) (pos : Int) : Option Nat :=
  if 0 ≤ pos ∧ pos ≤ string.length then
    (find (string.drop pos.toNat) pattern).map (pos.toNat + ·)
  else none

/-- Narrowing an integer result to a 32-bit `int`. -/
@[irreducible] def toInt (value : Int) : Int := value.bmod (2 ^ 32)

/-- The part of a buffer a C string function sees: up to the first NUL. -/
def cstr (bytes : List Byte) : List Byte := bytes.takeWhile fun byte => byte != 0

/-- `string.substr(pos)` with an `int` position; none is `std::out_of_range`. -/
def substr (string : List Byte) (pos : Int) : Option (List Byte) :=
  if 0 ≤ pos ∧ pos ≤ string.length then some (string.drop pos.toNat) else none

/-- `string.substr(0, count)` with an `int` count, which converts to `size_t`:
a negative count asks for everything. -/
def substrTo (string : List Byte) (count : Int) : List Byte :=
  if 0 ≤ count then string.take count.toNat else string

theorem toInt_eq (value : Int) (low : -2 ^ 31 ≤ value) (high : value < 2 ^ 31) :
    toInt value = value := by
  unfold toInt
  exact Int.bmod_eq_of_le (by omega) (by omega)

theorem toInt_low (value : Int) : -2 ^ 31 ≤ toInt value := by
  have bound := Int.le_bmod (x := value) (m := 2 ^ 32) (by decide)
  unfold toInt
  omega

theorem toInt_high (value : Int) : toInt value < 2 ^ 31 := by
  have bound := Int.bmod_lt (x := value) (m := 2 ^ 32) (by decide)
  unfold toInt
  omega

theorem toInt_wraps (value : Int) (past : 2 ^ 31 ≤ value) (close : value < 2 ^ 32) :
    toInt value < 0 := by
  unfold toInt
  rw [Int.bmod_def]
  split <;> omega

theorem toInt_le (value : Nat) : toInt value ≤ value := by
  unfold toInt
  rw [Int.bmod_def]
  split <;> omega

theorem forall_byte {holds : Byte → Prop} (all : ∀ code < 256, holds (UInt8.ofNat code))
    (byte : Byte) : holds byte := by
  have here := all byte.toNat byte.toNat_lt
  rwa [UInt8.ofNat_toNat] at here

theorem cstr_eq (bytes : List Byte) (clean : 0 ∉ bytes) : cstr bytes = bytes := by
  unfold cstr
  rw [List.takeWhile_eq_self_iff]
  intro byte member
  simp only [bne_iff_ne, ne_eq]
  intro zero
  exact clean (zero ▸ member)

theorem cstr_append (front rest : List Byte) (clean : 0 ∉ front) :
    cstr (front ++ rest) = front ++ cstr rest := by
  have whole := List.takeWhile_eq_self_iff.mp (cstr_eq front clean)
  exact List.takeWhile_append_of_pos whole

end AsrServer.Bytes
