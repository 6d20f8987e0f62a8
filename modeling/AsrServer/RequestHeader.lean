import AsrServer.Bytes

/-!
`Http_Server::GetInfo` with the parts of `sscanf` it uses. Each directive of a
format is one function from the remaining input to the remaining input; a
whole format succeeds when every conversion does, which is what the source
compares the result of `sscanf` with. Both scans start at the offset `find`
returned without looking whether it is `npos`: `c_str() + npos` is the byte
before the string, so the model has that byte as a parameter.
-/

namespace AsrServer.RequestHeader

open Bytes

def isSpace (byte : Byte) : Bool := byte == 32 || (9 ≤ byte && byte ≤ 13)

def isDigit (byte : Byte) : Bool := 48 ≤ byte && byte ≤ 57

/-- A white-space directive, also the one inside `%s`, `%d` and `%u`. -/
def skipSpace (input : List Byte) : List Byte := input.dropWhile isSpace

def literal (characters : String) (input : List Byte) : Option (List Byte) :=
  (text characters).isPrefixOf? input

/-- `%<width>s`. -/
def scanWord (width : Nat) (input : List Byte) : Option (List Byte × List Byte) :=
  let word := ((skipSpace input).takeWhile fun byte => !isSpace byte).take width
  if word = [] then none else some (word, (skipSpace input).drop word.length)

def decimal (digits : List Byte) : Nat :=
  digits.foldl (fun value digit => value * 10 + (digit.toNat - 48)) 0

/-- `%d` and `%u`: an optional sign and at least one digit. -/
def scanNumber (input : List Byte) : Option (Int × List Byte) :=
  let start := skipSpace input
  let negative := start.head? == some 45
  let unsigned := if negative || start.head? == some 43 then start.drop 1 else start
  let digits := unsigned.takeWhile isDigit
  if digits = [] then none
  else
    some (if negative then -(decimal digits : Int) else decimal digits,
      unsigned.drop digits.length)

/-- `%d` converts with `strtol`, which stops at the ends of `long`, and stores
the low 32 bits. -/
def storeInt (value : Int) : Int := toInt (max (-2 ^ 63) (min value (2 ^ 63 - 1)))

/-- `sscanf(buf, "POST /%2040s HTTP/%u.%u", uri, ...) == 3`. -/
def scanRequestLine (buf : List Byte) : Option (List Byte) := do
  let input ← literal "POST" buf
  let input ← literal "/" (skipSpace input)
  let (uri, input) ← scanWord 2040 input
  let input ← literal "HTTP/" (skipSpace input)
  let (_, input) ← scanNumber input
  let input ← literal "." input
  let _ ← scanNumber input
  return uri

/-- `sscanf(buf, "Content-Length:%d", &length) == 1`. -/
def scanContentLength (buf : List Byte) : Option Int := do
  let input ← literal "Content-Length:" buf
  let (value, _) ← scanNumber input
  return storeInt value

def toLower (byte : Byte) : Byte := if 65 ≤ byte && byte ≤ 90 then byte + 32 else byte

/-- `strcasecmp(left, right) == 0` in the C locale. -/
def strcasecmp (left right : List Byte) : Bool := left.map toLower == right.map toLower

/-- The C string at `header.c_str() + pos`, `before` being the byte in memory
ahead of the characters. -/
def c_str (before : Byte) (header : List Byte) : Option Nat → List Byte
  | some pos => cstr (header.drop pos)
  | none => cstr (before :: header)

/-- `Http_Server::GetInfo`: the length it stores when it returns 0, none when
it returns -1. -/
def GetInfo (before : Byte) (header : List Byte) : Option Int :=
  match scanRequestLine (c_str before header (find header (text "POST"))) with
  | none => none
  | some uri =>
      match scanContentLength (c_str before header (find header (text "Content-Length:"))) with
      | none => none
      | some length => if strcasecmp uri (text "request") then some length else none

theorem scanContentLength_int (buf : List Byte) (length : Int)
    (scanned : scanContentLength buf = some length) :
    -2 ^ 31 ≤ length ∧ length < 2 ^ 31 := by
  unfold scanContentLength at scanned
  simp only [Option.bind_eq_bind, Option.pure_def, Option.bind_eq_some_iff,
    Option.some.injEq] at scanned
  obtain ⟨_, _, _, _, stored⟩ := scanned
  subst stored
  exact ⟨toInt_low _, toInt_high _⟩

theorem GetInfo_int (before : Byte) (header : List Byte) (length : Int)
    (accepted : GetInfo before header = some length) :
    -2 ^ 31 ≤ length ∧ length < 2 ^ 31 := by
  unfold GetInfo at accepted
  split at accepted
  · cases accepted
  · split at accepted
    · cases accepted
    · rename_i scanned
      split at accepted
      · cases accepted
        exact scanContentLength_int _ _ scanned
      · cases accepted

example : GetInfo 0 (text "post\r\nPOST /Request HTTP/1.1\r\nContent-Length: 12") = some 12 := by
  decide +kernel

end AsrServer.RequestHeader
