import Mathlib.Data.List.Basic

/-!
JSON string literals as RFC 8259 has them, over UTF-8 bytes: what stands between the two
quotation marks, and the characters it is for. A `\u` escape for half of a surrogate pair
alone stands for no character, so such a literal has no value here.
-/

namespace AsrServer.JsonContent

def utf8 (chars : List Char) : List UInt8 := chars.flatMap String.utf8EncodeChar

@[simp] theorem utf8_nil : utf8 [] = [] := rfl

@[simp] theorem utf8_cons (char : Char) (chars : List Char) :
    utf8 (char :: chars) = String.utf8EncodeChar char ++ utf8 chars := rfl

def simple (letter : UInt8) : Option Char :=
  if letter = 0x22 then some '"'
  else if letter = 0x5c then some '\\'
  else if letter = 0x2f then some '/'
  else if letter = 0x62 then some (Char.ofNat 0x08)
  else if letter = 0x66 then some (Char.ofNat 0x0c)
  else if letter = 0x6e then some '\n'
  else if letter = 0x72 then some '\r'
  else if letter = 0x74 then some '\t'
  else none

def hexDigit (digit : UInt8) : Option Nat :=
  if 0x30 ≤ digit ∧ digit ≤ 0x39 then some (digit.toNat - 0x30)
  else if 0x41 ≤ digit ∧ digit ≤ 0x46 then some (digit.toNat - 0x41 + 10)
  else if 0x61 ≤ digit ∧ digit ≤ 0x66 then some (digit.toNat - 0x61 + 10)
  else none

def hex4 : List UInt8 → Option Nat
  | [a, b, c, d] => do
      return (((← hexDigit a) * 16 + (← hexDigit b)) * 16 + (← hexDigit c)) * 16 + (← hexDigit d)
  | _ => none

def Unescaped (char : Char) : Prop := 0x20 ≤ char.toNat ∧ char ≠ '"' ∧ char ≠ '\\'

instance (char : Char) : Decidable (Unescaped char) := inferInstanceAs (Decidable (_ ∧ _))

inductive Content : List UInt8 → List Char → Prop where
  | done : Content [] []
  | unescaped {char rest value} (plain : Unescaped char) (more : Content rest value) :
      Content (String.utf8EncodeChar char ++ rest) (char :: value)
  | escaped {letter char rest value} (named : simple letter = some char)
      (more : Content rest value) : Content (0x5c :: letter :: rest) (char :: value)
  | unit {digits char rest value} (four : hex4 digits = some char.toNat)
      (more : Content rest value) : Content (0x5c :: 0x75 :: (digits ++ rest)) (char :: value)
  | pair {upper lower char rest value} {high low : Nat} (first : hex4 upper = some high)
      (second : hex4 lower = some low) (leading : 0xd800 ≤ high ∧ high < 0xdc00)
      (trailing : 0xdc00 ≤ low ∧ low < 0xe000)
      (joined : char.toNat = 0x10000 + (high - 0xd800) * 0x400 + (low - 0xdc00))
      (more : Content rest value) :
      Content (0x5c :: 0x75 :: (upper ++ 0x5c :: 0x75 :: (lower ++ rest))) (char :: value)

def Literal (bytes : List UInt8) (value : List Char) : Prop :=
  ∃ content, bytes = 0x22 :: content ++ [0x22] ∧ Content content value

theorem literal_iff (content : List UInt8) (value : List Char) :
    Literal (0x22 :: content ++ [0x22]) value ↔ Content content value := by
  constructor
  · rintro ⟨other, same, holds⟩
    have inner := List.append_cancel_right same
    rw [List.cons.injEq] at inner
    rw [inner.2]
    exact holds
  · intro holds
    exact ⟨content, rfl, holds⟩

/-! No encoding of a character begins another. -/

theorem utf8_front (one other : Char) (rest more : List UInt8)
    (same : String.utf8EncodeChar one ++ rest = String.utf8EncodeChar other ++ more) :
    one = other ∧ rest = more := by
  have first := ByteArray.utf8DecodeChar?_utf8EncodeChar_append (b := rest.toByteArray) (c := one)
  have second :=
    ByteArray.utf8DecodeChar?_utf8EncodeChar_append (b := more.toByteArray) (c := other)
  rw [← List.toByteArray_append] at first second
  rw [same, second, Option.some.injEq] at first
  subst first
  exact ⟨rfl, List.append_cancel_left same⟩

theorem encode_backslash : String.utf8EncodeChar '\\' = [0x5c] := by decide

theorem escape_not_char (char : Char) (rest more : List UInt8) (other : char ≠ '\\') :
    String.utf8EncodeChar char ++ rest ≠ 0x5c :: more := by
  intro same
  rw [← List.singleton_append, ← encode_backslash] at same
  exact other (utf8_front _ _ _ _ same).1

/-! Reading content from its front. -/

theorem content_nil (value : List Char) : Content [] value ↔ value = [] := by
  constructor
  · intro content
    generalize empty : ([] : List UInt8) = bytes at content
    cases content with
    | done => rfl
    | unescaped plain more => simp at empty
    | escaped named more => cases empty
    | unit four more => cases empty
    | pair first second leading trailing joined more => cases empty
  · rintro rfl
    exact .done

theorem content_char (char : Char) (rest : List UInt8) (value : List Char)
    (other : char ≠ '\\') :
    Content (String.utf8EncodeChar char ++ rest) value ↔
      Unescaped char ∧ ∃ later, value = char :: later ∧ Content rest later := by
  constructor
  · intro content
    generalize front : String.utf8EncodeChar char ++ rest = bytes at content
    cases content with
    | done => simp at front
    | unescaped plain more =>
        obtain ⟨rfl, rfl⟩ := utf8_front _ _ _ _ front
        exact ⟨plain, _, rfl, more⟩
    | escaped named more => exact absurd front (escape_not_char char _ _ other)
    | unit four more => exact absurd front (escape_not_char char _ _ other)
    | pair first second leading trailing joined more =>
        exact absurd front (escape_not_char char _ _ other)
  · rintro ⟨plain, later, rfl, more⟩
    exact .unescaped plain more

theorem content_escape (letter : UInt8) (rest : List UInt8) (value : List Char)
    (other : letter ≠ 0x75) :
    Content (0x5c :: letter :: rest) value ↔
      ∃ char later, simple letter = some char ∧ value = char :: later ∧ Content rest later := by
  constructor
  · intro content
    generalize front : 0x5c :: letter :: rest = bytes at content
    cases content with
    | done => cases front
    | unescaped plain more => exact absurd front.symm (escape_not_char _ _ _ plain.2.2)
    | escaped named more =>
        cases front
        exact ⟨_, _, named, rfl, more⟩
    | unit four more =>
        cases front
        exact absurd rfl other
    | pair first second leading trailing joined more =>
        cases front
        exact absurd rfl other
  · rintro ⟨char, later, named, rfl, more⟩
    exact .escaped named more

end AsrServer.JsonContent
