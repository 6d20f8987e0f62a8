import AsrServer.UrlCode

/-!
`Json::Reader` with the values it builds. Its place in the document is what is left of it;
behind the end stands the NUL of a `std::string`. Floating point is a parameter:
`double` gives what `valueToString` prints for the number `is >> value` reads, none where
that fails. Comments are read over but not kept: each begins with the `/` that
`setComment` asks for. The recursion has fuel, and `readValue_ends` says how much is enough.
Strings are short of the 2^31 - 6 bytes from which a `Value` throws.
-/

namespace AsrServer.JsonReader

open Bytes RequestHeader UrlCode

/-- How a call does not return. -/
inductive Fault where
  | exception
  | endless
  deriving DecidableEq, Repr

inductive Value where
  | null
  | int (value : Int)
  | uint (value : Nat)
  | real (shown : List Byte)
  | string (value : List Byte)
  | boolean (value : Bool)
  | array (values : List Value)
  | object (members : List (List Byte × Value))

/-- `map[name] = value`. Names are shorter than 2^30 bytes: of a length from there on `CZString`
keeps only the low bits. -/
def assign {α : Type} (name : List Byte) (value : α) :
    List (List Byte × α) → List (List Byte × α)
  | [] => [(name, value)]
  | (other, old) :: rest =>
      if other = name then (name, value) :: rest else (other, old) :: assign name value rest

/-! Tokens. -/

inductive TokenType where
  | tokenEndOfStream
  | tokenObjectBegin
  | tokenObjectEnd
  | tokenArrayBegin
  | tokenArrayEnd
  | tokenString
  | tokenNumber
  | tokenTrue
  | tokenFalse
  | tokenNull
  | tokenArraySeparator
  | tokenMemberSeparator
  | tokenComment
  | tokenError
  deriving DecidableEq, Repr

structure Token where
  type_ : TokenType
  text : List Byte
  deriving DecidableEq, Repr

def skipSpaces (rest : List Byte) : List Byte :=
  rest.dropWhile fun c => c == 32 || c == 9 || c == 13 || c == 10

def matchWord (pattern rest : List Byte) : Bool × List Byte :=
  if pattern.isPrefixOf rest then (true, rest.drop pattern.length) else (false, rest)

def readString : List Byte → Bool × List Byte
  | [] => (false, [])
  | [92] => (false, [])
  | 92 :: _ :: rest => readString rest
  | 34 :: rest => (true, rest)
  | _ :: rest => readString rest

def readCStyleComment : List Byte → Bool × List Byte
  | [] => (false, [])
  | 42 :: 47 :: rest => (true, rest)
  | _ :: rest => readCStyleComment rest

def readCppStyleComment : List Byte → Bool × List Byte
  | [] => (true, [])
  | 10 :: rest => (true, rest)
  | 13 :: 10 :: rest => (true, rest)
  | 13 :: rest => (true, rest)
  | _ :: rest => readCppStyleComment rest

def readComment : List Byte → Bool × List Byte
  | [] => (false, [])
  | 42 :: rest => readCStyleComment rest
  | 47 :: rest => readCppStyleComment rest
  | _ :: rest => (false, rest)

/-- What is left behind a number of which the first character has been read. -/
def readNumber (rest : List Byte) : List Byte :=
  let rest := match rest.dropWhile isDigit with
    | 46 :: fraction => fraction.dropWhile isDigit
    | other => other
  match rest with
  | [] => []
  | mark :: exponent =>
      if mark = 101 ∨ mark = 69 then
        match exponent with
        | [] => []
        | sign :: digits =>
            if sign = 43 ∨ sign = 45 then digits.dropWhile isDigit
            else exponent.dropWhile isDigit
      else rest

def okToken (type : TokenType) : Bool × List Byte → TokenType × List Byte
  | (ok, rest) => (if ok then type else .tokenError, rest)

/-- The type of a token with the first character `c`, and what is left behind it. -/
def scanToken (c : Byte) (rest : List Byte) : TokenType × List Byte :=
  if c = 123 then (.tokenObjectBegin, rest)
  else if c = 125 then (.tokenObjectEnd, rest)
  else if c = 91 then (.tokenArrayBegin, rest)
  else if c = 93 then (.tokenArrayEnd, rest)
  else if c = 34 then okToken .tokenString (readString rest)
  else if c = 47 then okToken .tokenComment (readComment rest)
  else if isDigit c ∨ c = 45 then (.tokenNumber, readNumber rest)
  else if c = 116 then okToken .tokenTrue (matchWord (text "rue") rest)
  else if c = 102 then okToken .tokenFalse (matchWord (text "alse") rest)
  else if c = 110 then okToken .tokenNull (matchWord (text "ull") rest)
  else if c = 44 then (.tokenArraySeparator, rest)
  else if c = 58 then (.tokenMemberSeparator, rest)
  else if c = 0 then (.tokenEndOfStream, rest)
  else (.tokenError, rest)

def readToken (rest : List Byte) : Token × List Byte :=
  match skipSpaces rest with
  | [] => (⟨.tokenEndOfStream, []⟩, [])
  | c :: later =>
      (⟨(scanToken c later).1, (c :: later).take (later.length + 1 - (scanToken c later).2.length)⟩,
        (scanToken c later).2)

/-- A comment takes a byte at least, so there are not more of them than bytes. -/
def skip_comments : Nat → List Byte → Token × List Byte
  | 0, rest => readToken rest
  | fuel + 1, rest =>
      if (readToken rest).1.type_ = .tokenComment then skip_comments fuel (readToken rest).2
      else readToken rest

def skipCommentTokens (rest : List Byte) : Token × List Byte := skip_comments rest.length rest

/-! Strings and numbers. -/

def codePointToUTF8 (cp : Nat) : List Byte :=
  if cp ≤ 0x7f then [UInt8.ofNat cp]
  else if cp ≤ 0x7FF then
    [UInt8.ofNat (0xC0 ||| (0x1f &&& cp >>> 6)), UInt8.ofNat (0x80 ||| (0x3f &&& cp))]
  else if cp ≤ 0xFFFF then
    [UInt8.ofNat (0xE0 ||| (0xf &&& cp >>> 12)), UInt8.ofNat (0x80 ||| (0x3f &&& cp >>> 6)),
      UInt8.ofNat (0x80 ||| (0x3f &&& cp))]
  else if cp ≤ 0x10FFFF then
    [UInt8.ofNat (0xF0 ||| (0x7 &&& cp >>> 18)), UInt8.ofNat (0x80 ||| (0x3f &&& cp >>> 12)),
      UInt8.ofNat (0x80 ||| (0x3f &&& cp >>> 6)), UInt8.ofNat (0x80 ||| (0x3f &&& cp))]
  else []

def decodeUnicodeEscapeSequence (a b c d : Byte) : Option Nat := do
  let a ← char2num a
  let b ← char2num b
  let c ← char2num c
  let d ← char2num d
  return ((a.toNat * 16 + b.toNat) * 16 + c.toNat) * 16 + d.toNat

def unescape (escape : Byte) : Option Byte :=
  if escape = 34 ∨ escape = 47 ∨ escape = 92 then some escape
  else if escape = 98 then some 8
  else if escape = 102 then some 12
  else if escape = 110 then some 10
  else if escape = 114 then some 13
  else if escape = 116 then some 9
  else none

/-- The loop of `decodeString`, between the quotation marks. -/
def decode_string : List Byte → Option (List Byte)
  | [] => some []
  | 34 :: _ => some []
  | 92 :: 117 :: a :: b :: c :: d :: rest =>
      match decodeUnicodeEscapeSequence a b c d with
      | none => none
      | some unicode =>
          if 0xD800 ≤ unicode ∧ unicode ≤ 0xDBFF then
            match rest with
            | 92 :: 117 :: e :: f :: g :: h :: rest =>
                match decodeUnicodeEscapeSequence e f g h with
                | none => none
                | some surrogatePair =>
                    (decode_string rest).map (codePointToUTF8
                      (0x10000 + ((unicode &&& 0x3FF) <<< 10) + (surrogatePair &&& 0x3FF)) ++ ·)
            | _ => none
          else (decode_string rest).map (codePointToUTF8 unicode ++ ·)
  | [92] => none
  | 92 :: escape :: rest =>
      match unescape escape with
      | none => none
      | some char => (decode_string rest).map (char :: ·)
  | c :: rest => (decode_string rest).map (c :: ·)

def decodeString (token : Token) : Option (List Byte) :=
  decode_string (token.text.drop 1).dropLast

/-- The loop of `decodeNumber`; none where the number is left to `decodeDouble`. -/
def integer_loop (maxIntegerValue : Nat) : Nat → List Byte → Option Nat
  | value, [] => some value
  | value, c :: rest =>
      if !isDigit c then none
      else if maxIntegerValue / 10 ≤ value ∧ (maxIntegerValue / 10 < value ∨ rest ≠ [] ∨
          maxIntegerValue % 10 < c.toNat - 48) then none
      else integer_loop maxIntegerValue (value * 10 + (c.toNat - 48)) rest

def decodeNumber (double : List Byte → Option (List Byte)) (token : Token) : Option Value :=
  if token.text.head? = some 45 then
    match integer_loop (2 ^ 63) 0 (token.text.drop 1) with
    | some value => some (.int (-value))
    | none => (double token.text).map .real
  else
    match integer_loop (2 ^ 64 - 1) 0 token.text with
    | some value => if value ≤ 2 ^ 31 - 1 then some (.int value) else some (.uint value)
    | none => (double token.text).map .real

/-! The reader. A call gives the value, or none where it is not successful, and what is
left of the document. -/

abbrev Read := Except Fault (Option Value × List Byte)

def recover_loop (skipUntilToken : TokenType) : Nat → List Byte → Read
  | 0, _ => .error .endless
  | fuel + 1, rest =>
      if (readToken rest).1.type_ = skipUntilToken ∨
          (readToken rest).1.type_ = .tokenEndOfStream then .ok (none, (readToken rest).2)
      else recover_loop skipUntilToken fuel (readToken rest).2

def recoverFromError (skipUntilToken : TokenType) (rest : List Byte) : Read :=
  recover_loop skipUntilToken (rest.length + 1) rest

def stackLimit_g : Nat := 1000

section Reader

variable (double : List Byte → Option (List Byte))

/-! `stackDepth_g` is the number of calls of `readValue` that are open. The source does not
count a call back that ends with a syntax error; no other value is read after that. -/

mutual

def readValue : Nat → Nat → List Byte → Read
  | 0, _, _ => .error .endless
  | fuel + 1, stackDepth_g, rest =>
      if stackLimit_g ≤ stackDepth_g then .error .exception
      else
        let (token, rest) := skipCommentTokens rest
        match token.type_ with
        | .tokenObjectBegin => readObject fuel (stackDepth_g + 1) [] [] rest
        | .tokenArrayBegin =>
            if (skipSpaces rest).head? = some 93 then .ok (some (.array []), (readToken rest).2)
            else readArray fuel (stackDepth_g + 1) [] rest
        | .tokenNumber => .ok (decodeNumber double token, rest)
        | .tokenString => .ok ((decodeString token).map .string, rest)
        | .tokenTrue => .ok (some (.boolean true), rest)
        | .tokenFalse => .ok (some (.boolean false), rest)
        | .tokenNull => .ok (some .null, rest)
        | _ => .ok (none, rest)

/-- The loop of `readObject`: the members so far and the name of the last one. -/
def readObject : Nat → Nat → List (List Byte × Value) → List Byte → List Byte → Read
  | 0, _, _, _, _ => .error .endless
  | fuel + 1, stackDepth_g, members, name, rest =>
      let (tokenName, rest) := skipCommentTokens rest
      if tokenName.type_ = .tokenObjectEnd ∧ name = [] then .ok (some (.object members), rest)
      else if tokenName.type_ ≠ .tokenString then recoverFromError .tokenObjectEnd rest
      else
        match decodeString tokenName with
        | none => recoverFromError .tokenObjectEnd rest
        | some name =>
            let (colon, rest) := readToken rest
            if colon.type_ ≠ .tokenMemberSeparator then recoverFromError .tokenObjectEnd rest
            else do
              match ← readValue fuel stackDepth_g rest with
              | (none, rest) => recoverFromError .tokenObjectEnd rest
              | (some value, rest) =>
                  let (comma, after) := readToken rest
                  if comma.type_ ≠ .tokenObjectEnd ∧ comma.type_ ≠ .tokenArraySeparator ∧
                      comma.type_ ≠ .tokenComment then recoverFromError .tokenObjectEnd after
                  else
                    -- Behind a comment any token separates.
                    let (comma, rest) := skipCommentTokens rest
                    if comma.type_ = .tokenObjectEnd then
                      .ok (some (.object (assign name value members)), rest)
                    else readObject fuel stackDepth_g (assign name value members) name rest

/-- The loop of `readArray`: the values so far. -/
def readArray : Nat → Nat → List Value → List Byte → Read
  | 0, _, _, _ => .error .endless
  | fuel + 1, stackDepth_g, values, rest => do
      match ← readValue fuel stackDepth_g rest with
      | (none, rest) => recoverFromError .tokenArrayEnd rest
      | (some value, rest) =>
          let (token, rest) := skipCommentTokens rest
          if token.type_ = .tokenArrayEnd then .ok (some (.array (values ++ [value])), rest)
          else if token.type_ = .tokenArraySeparator then
            readArray fuel stackDepth_g (values ++ [value]) rest
          else recoverFromError .tokenArrayEnd rest

end

/-- `reader.parse(document, root)`: none is false. -/
def parse (document : List Byte) : Except Fault (Option Value) :=
  (readValue double (2 * document.length + 1) 0 document).map Prod.fst

end Reader

/-! The reader comes to an end. -/

theorem readString_length (rest : List Byte) : (readString rest).2.length ≤ rest.length := by
  fun_induction readString rest <;> simp_all <;> omega

theorem readCStyleComment_length (rest : List Byte) :
    (readCStyleComment rest).2.length ≤ rest.length := by
  fun_induction readCStyleComment rest <;> simp_all <;> omega

theorem readCppStyleComment_length (rest : List Byte) :
    (readCppStyleComment rest).2.length ≤ rest.length := by
  fun_induction readCppStyleComment rest <;> simp_all <;> omega

theorem readComment_length (rest : List Byte) : (readComment rest).2.length ≤ rest.length := by
  unfold readComment
  split
  · simp
  · exact Nat.le_succ_of_le (readCStyleComment_length _)
  · exact Nat.le_succ_of_le (readCppStyleComment_length _)
  · simp

theorem readNumber_length (rest : List Byte) : (readNumber rest).length ≤ rest.length := by
  have whole := List.length_dropWhile_le isDigit rest
  have fraction : (match rest.dropWhile isDigit with
      | 46 :: fraction => fraction.dropWhile isDigit
      | other => other).length ≤ rest.length := by
    split
    · rename_i fraction same
      rw [same, List.length_cons] at whole
      have later := List.length_dropWhile_le isDigit fraction
      omega
    · exact whole
  unfold readNumber
  dsimp only
  generalize (match rest.dropWhile isDigit with
    | 46 :: fraction => fraction.dropWhile isDigit
    | other => other) = middle at fraction ⊢
  cases middle with
  | nil => exact Nat.zero_le _
  | cons mark exponent =>
      rw [List.length_cons] at fraction
      have digits := List.length_dropWhile_le isDigit exponent
      cases exponent with
      | nil =>
          simp only
          split
          · exact Nat.zero_le _
          · exact fraction
      | cons sign digits' =>
          have signed := List.length_dropWhile_le isDigit digits'
          rw [List.length_cons] at fraction digits
          simp only
          split_ifs
          · omega
          · omega
          · rw [List.length_cons, List.length_cons]
            omega

theorem matchWord_length (pattern rest : List Byte) :
    (matchWord pattern rest).2.length ≤ rest.length := by
  unfold matchWord
  split
  · simp
  · exact Nat.le_refl _

theorem okToken_length (type : TokenType) (pair : Bool × List Byte) (bound : Nat)
    (within : pair.2.length ≤ bound) : (okToken type pair).2.length ≤ bound := by
  unfold okToken
  exact within

theorem ite_length {condition : Prop} [Decidable condition] {yes no : TokenType × List Byte}
    {bound : Nat} (left : yes.2.length ≤ bound) (right : no.2.length ≤ bound) :
    (if condition then yes else no).2.length ≤ bound := by
  split
  · exact left
  · exact right

theorem scanToken_length (c : Byte) (rest : List Byte) :
    (scanToken c rest).2.length ≤ rest.length := by
  have one : ∀ type : TokenType, (type, rest).2.length ≤ rest.length := fun _ => Nat.le_refl _
  have string := okToken_length .tokenString _ _ (readString_length rest)
  have comment := okToken_length .tokenComment _ _ (readComment_length rest)
  have word := fun type pattern => okToken_length type _ _ (matchWord_length pattern rest)
  unfold scanToken
  apply ite_length (one _)
  apply ite_length (one _)
  apply ite_length (one _)
  apply ite_length (one _)
  apply ite_length string
  apply ite_length comment
  apply ite_length (readNumber_length rest)
  apply ite_length (word _ _)
  apply ite_length (word _ _)
  apply ite_length (word _ _)
  apply ite_length (one _)
  apply ite_length (one _)
  exact ite_length (one _) (one _)

theorem readToken_length (rest : List Byte) : (readToken rest).2.length ≤ rest.length ∧
    ((readToken rest).1.type_ ≠ .tokenEndOfStream → (readToken rest).2.length < rest.length) := by
  have spaces : (skipSpaces rest).length ≤ rest.length := List.length_dropWhile_le _ _
  unfold readToken
  split
  · simp
  · rename_i c later same
    rw [same, List.length_cons] at spaces
    have token := scanToken_length c later
    dsimp only
    omega

theorem skipCommentTokens_length (rest : List Byte) :
    (skipCommentTokens rest).2.length ≤ rest.length ∧
      ((skipCommentTokens rest).1.type_ ≠ .tokenEndOfStream →
        (skipCommentTokens rest).2.length < rest.length) := by
  have loop : ∀ fuel rest, (skip_comments fuel rest).2.length ≤ rest.length ∧
      ((skip_comments fuel rest).1.type_ ≠ .tokenEndOfStream →
        (skip_comments fuel rest).2.length < rest.length) := by
    intro fuel
    induction fuel with
    | zero => exact readToken_length
    | succ fuel ih =>
        intro rest
        have token := readToken_length rest
        rw [skip_comments]
        split
        · rename_i comment
          have shorter := token.2 (by rw [comment]; decide)
          have later := ih (readToken rest).2
          omega
        · exact token
  exact loop _ _

def Ends (rest : List Byte) : Read → Prop
  | .error .endless => False
  | .ok (some _, after) => after.length < rest.length
  | _ => True

theorem Ends.longer {rest more : List Byte} {read : Read} (ends : Ends rest read)
    (longer : rest.length ≤ more.length) : Ends more read := by
  match read with
  | .error .exception => trivial
  | .ok (none, _) => trivial
  | .ok (some _, after) => exact Nat.lt_of_lt_of_le ends longer

theorem recover_ends (skipUntilToken : TokenType) (whole rest : List Byte) :
    Ends whole (recoverFromError skipUntilToken rest) := by
  have loop : ∀ fuel rest, rest.length < fuel →
      Ends whole (recover_loop skipUntilToken fuel rest) := by
    intro fuel
    induction fuel with
    | zero => exact fun _ less => absurd less (Nat.not_lt_zero _)
    | succ fuel ih =>
        intro rest enough
        have token := readToken_length rest
        rw [recover_loop]
        split
        · trivial
        · rename_i goes
          rw [not_or] at goes
          have shorter := token.2 goes.2
          exact ih _ (by omega)
  exact loop _ _ (Nat.lt_succ_self _)

theorem Ends.bind {inner whole : List Byte} {read : Read} (ends : Ends inner read)
    (skipUntilToken : TokenType) (later : Value → List Byte → Read)
    (goes : ∀ value after, after.length < inner.length → Ends whole (later value after)) :
    Ends whole (read >>= fun pair =>
      match pair with
      | (none, rest) => recoverFromError skipUntilToken rest
      | (some value, rest) => later value rest) := by
  match read with
  | .error .exception => trivial
  | .ok (none, rest) => exact recover_ends skipUntilToken whole rest
  | .ok (some value, rest) => exact goes value rest ends

section Ends

variable {double : List Byte → Option (List Byte)}

theorem value_ends (fuel : Nat)
    (object : ∀ depth members name rest, 2 * rest.length + 2 ≤ fuel →
      Ends rest (readObject double fuel depth members name rest))
    (array : ∀ depth values rest, 2 * rest.length + 2 ≤ fuel →
      Ends rest (readArray double fuel depth values rest))
    (depth : Nat) (rest : List Byte) (enough : 2 * rest.length + 1 ≤ fuel + 1) :
    Ends rest (readValue double (fuel + 1) depth rest) := by
  have token := skipCommentTokens_length rest
  have done : ∀ value : Option Value,
      (skipCommentTokens rest).1.type_ ≠ .tokenEndOfStream →
        Ends rest (.ok (value, (skipCommentTokens rest).2)) := by
    intro value more
    cases value with
    | none => trivial
    | some value => exact token.2 more
  rw [readValue]
  split
  · trivial
  -- A token takes a byte, so the calls inside have fewer to read.
  · cases kind : (skipCommentTokens rest).1.type_ with
    | tokenObjectBegin =>
        have shorter := token.2 (by rw [kind]; decide)
        simp only [kind]
        exact (object _ _ _ _ (by omega)).longer token.1
    | tokenArrayBegin =>
        have shorter := token.2 (by rw [kind]; decide)
        simp only [kind]
        split
        · have close := (readToken_length (skipCommentTokens rest).2).1
          exact Nat.lt_of_le_of_lt close shorter
        · exact (array _ _ _ (by omega)).longer token.1
    | tokenNumber | tokenString | tokenTrue | tokenFalse | tokenNull =>
        simp only [kind]
        exact done _ (by rw [kind]; decide)
    | _ =>
        simp only [kind]
        trivial

theorem object_ends (fuel : Nat)
    (value : ∀ depth rest, 2 * rest.length + 1 ≤ fuel →
      Ends rest (readValue double fuel depth rest))
    (object : ∀ depth members name rest, 2 * rest.length + 2 ≤ fuel →
      Ends rest (readObject double fuel depth members name rest))
    (depth : Nat) (members : List (List Byte × Value)) (name rest : List Byte)
    (enough : 2 * rest.length + 2 ≤ fuel + 1) :
    Ends rest (readObject double (fuel + 1) depth members name rest) := by
  have token := skipCommentTokens_length rest
  rw [readObject]
  dsimp only
  split
  · rename_i closes
    exact token.2 (by rw [closes.1]; decide)
  · split
    · exact recover_ends _ _ _
    · rename_i named
      have shorter := token.2 (by
        intro other
        exact named (by rw [other]; decide))
      split
      · exact recover_ends _ _ _
      · rename_i name' _
        have colon := readToken_length (skipCommentTokens rest).2
        split
        · exact recover_ends _ _ _
        · apply (value depth _ (by omega)).bind
          intro value after less
          have comma := skipCommentTokens_length after
          split
          · exact recover_ends _ _ _
          · split
            · rename_i ends
              have last := comma.2 (by rw [ends]; decide)
              exact (by omega : (skipCommentTokens after).2.length < rest.length)
            · exact (object _ _ _ _ (by omega)).longer (by omega)

theorem array_ends (fuel : Nat)
    (value : ∀ depth rest, 2 * rest.length + 1 ≤ fuel →
      Ends rest (readValue double fuel depth rest))
    (array : ∀ depth values rest, 2 * rest.length + 2 ≤ fuel →
      Ends rest (readArray double fuel depth values rest))
    (depth : Nat) (values : List Value) (rest : List Byte)
    (enough : 2 * rest.length + 2 ≤ fuel + 1) :
    Ends rest (readArray double (fuel + 1) depth values rest) := by
  rw [readArray]
  apply (value depth rest (by omega)).bind
  intro value after less
  have token := skipCommentTokens_length after
  dsimp only
  split
  · exact Nat.lt_of_le_of_lt token.1 less
  · split
    · exact (array _ _ _ (by omega)).longer (by omega)
    · exact recover_ends _ _ _

theorem reader_ends (fuel : Nat) :
    (∀ depth rest, 2 * rest.length + 1 ≤ fuel → Ends rest (readValue double fuel depth rest)) ∧
    (∀ depth members name rest, 2 * rest.length + 2 ≤ fuel →
      Ends rest (readObject double fuel depth members name rest)) ∧
    (∀ depth values rest, 2 * rest.length + 2 ≤ fuel →
      Ends rest (readArray double fuel depth values rest)) := by
  induction fuel with
  | zero =>
      refine ⟨?_, ?_, ?_⟩
      · intro _ _ enough
        omega
      · intro _ _ _ _ enough
        omega
      · intro _ _ _ enough
        omega
  | succ fuel ih =>
      obtain ⟨value, object, array⟩ := ih
      exact ⟨value_ends fuel object array, object_ends fuel value object,
        array_ends fuel value array⟩

variable (double) in
theorem readValue_ends (fuel depth : Nat) (rest : List Byte)
    (enough : 2 * rest.length + 1 ≤ fuel) : Ends rest (readValue double fuel depth rest) :=
  (reader_ends fuel).1 depth rest enough

end Ends

end AsrServer.JsonReader
