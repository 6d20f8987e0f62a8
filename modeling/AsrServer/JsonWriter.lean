import Mathlib.Data.List.Sort
import AsrServer.JsonDocument
import AsrServer.JsonPath
import AsrServer.ReadableReply

/-!
`Json::FastWriter` against the reader. What it writes is JSON, and the reader makes of it the
value that was written, with its members in the order of the map and its numbers in the types
that the reader chooses.
-/

namespace AsrServer.JsonWriter

open Bytes RequestHeader JsonReader JsonContent JsonDocument JsonPath Numbers

/-! Numbers and strings. -/

/-- `valueToString` of a `LargestInt`. The negation wraps at the least value, and as a
`LargestUInt` that is its magnitude all the same. -/
def valueToString (value : Int) : List Byte :=
  if value < 0 then 45 :: decimalText value.natAbs else decimalText value.natAbs

/-- `char` is signed: from 128 on a byte is negative. -/
def isControlCharacter (ch : Byte) : Bool := 0 < ch && ch ≤ 0x1F

def hexUpper (digit : Nat) : Byte := UInt8.ofNat (if digit < 10 then digit + 48 else digit + 55)

/-- The `switch` of `valueToQuotedStringN`. -/
def escaped (c : Byte) : List Byte :=
  if c = 34 then text "\\\""
  else if c = 92 then text "\\\\"
  else if c = 8 then text "\\b"
  else if c = 12 then text "\\f"
  else if c = 10 then text "\\n"
  else if c = 13 then text "\\r"
  else if c = 9 then text "\\t"
  else if isControlCharacter c || c = 0 then
    text "\\u00" ++ [hexUpper (c.toNat / 16), hexUpper (c.toNat % 16)]
  else [c]

def accept : List Byte := text "\"\\" ++ [8, 12, 10, 13, 9]

def valueToQuotedStringN (value : List Byte) (length : Nat) : List Byte :=
  if (value.take length).all fun c => !accept.contains c && !(isControlCharacter c || c == 0) then
    34 :: (cstr value ++ [34])
  else 34 :: ((value.take length).flatMap escaped ++ [34])

/-! The writer. -/

def separated : List (List Byte) → List Byte
  | [] => []
  | [text] => text
  | text :: more => text ++ 44 :: separated more

def sorted {α : Type} (members : List (List Byte × α)) : List (List Byte × α) :=
  members.insertionSort fun one other => one.1 ≤ other.1

/-- The length is converted to `unsigned`. -/
def quoted (value : List Byte) : List Byte :=
  valueToQuotedStringN value (value.length % 2 ^ 32)

section Writer

variable (yamlCompatiblityEnabled : Bool)

def member (entry : List Byte × List Byte) : List Byte :=
  quoted entry.1 ++ ((if yamlCompatiblityEnabled then text ": " else text ":") ++ entry.2)

mutual

/-- `size` is an `int` in the loop over an array. -/
def writeValue : Value → List Byte
  | .null => text "null"
  | .int value => valueToString value
  | .uint value => decimalText value
  | .real shown => shown
  | .string value => quoted value
  | .boolean value => if value then text "true" else text "false"
  | .array values =>
      91 :: (separated ((writeValues values).take (toInt values.length).toNat) ++ [93])
  | .object members =>
      123 :: (separated ((sorted (writeMembers members)).map (member yamlCompatiblityEnabled)) ++
        [125])

def writeValues : List Value → List (List Byte)
  | [] => []
  | value :: rest => writeValue value :: writeValues rest

def writeMembers : List (List Byte × Value) → List (List Byte × List Byte)
  | [] => []
  | (name, value) :: rest => (name, writeValue value) :: writeMembers rest

end

def write (root : Value) : List Byte := writeValue yamlCompatiblityEnabled root ++ [10]

end Writer

example : write false (.object [(text "b", .array [.int (-12), .null]), (text "a", .string [7])]) =
    text "\x7b\"a\":\"\\u0007\",\"b\":[-12,null]\x7d\n" := by decide +kernel

/-! What is written is read as this. -/

def integer (value : Int) : Value :=
  if value < 2 ^ 31 then .int value else .uint value.toNat

/-- The integer in a print of digits alone, with a minus or without. -/
def integral (shown : List Byte) : Option Int :=
  let minus := shown.head? == some 45
  let digits := if minus then shown.drop 1 else shown
  if !digits.isEmpty && digits.all isDigit then
    some (if minus then -(decimal digits : Int) else decimal digits)
  else none

mutual

/-- What is read of the written value. It is the same value with its members in the order of the
map, and a number is of the type that its print alone leads to: `%.17g` puts no point behind a
whole `double`. -/
def reread : Value → Value
  | .null => .null
  | .int value => integer value
  | .uint value => integer value
  | .real shown =>
      match integral shown with
      | some value => if -2 ^ 63 ≤ value ∧ value < 2 ^ 64 then integer value else .real shown
      | none => .real shown
  | .string value => .string value
  | .boolean value => .boolean value
  | .array values => .array (rereadValues values)
  | .object members => .object (sorted (rereadMembers members))

def rereadValues : List Value → List Value
  | [] => []
  | value :: rest => reread value :: rereadValues rest

def rereadMembers : List (List Byte × Value) → List (List Byte × Value)
  | [] => []
  | (name, value) :: rest => (name, reread value) :: rereadMembers rest

end

mutual

/-- The calls of `readValue` that are open at once. -/
def depth : Value → Nat
  | .array values => depthValues values + 1
  | .object members => depthMembers members + 1
  | _ => 1

def depthValues : List Value → Nat
  | [] => 0
  | value :: rest => max (depth value) (depthValues rest)

def depthMembers : List (List Byte × Value) → Nat
  | [] => 0
  | (_, value) :: rest => max (depth value) (depthMembers rest)

end

/-- UTF-8, and short enough for the 30 bits that `CZString` keeps of the length of a name. -/
def Plain (string : List Byte) : Prop :=
  (∃ chars, string = utf8 chars) ∧ string.length < 2 ^ 30

section Double

variable (double : List Byte → Option (List Byte))

/-- What `valueToString` prints of a `double` that was read is a JSON number, and that is read as
the same `double`. -/
def Reprints : Prop := ∀ bytes shown, double bytes = some shown →
  (∃ number : Number, number.text = shown) ∧ double shown = some shown

/-- What a `Value` can be as to its sizes, with strings that are text and finite numbers. -/
inductive Printable : Value → Prop where
  | null : Printable .null
  | int {value : Int} (low : -2 ^ 63 ≤ value) (high : value < 2 ^ 63) : Printable (.int value)
  | uint {value : Nat} (high : value < 2 ^ 64) : Printable (.uint value)
  | real {shown : List Byte} (print : ∃ bytes, double bytes = some shown) :
      Printable (.real shown)
  | string {value : List Byte} (plain : Plain value) : Printable (.string value)
  | boolean (value : Bool) : Printable (.boolean value)
  | array {values : List Value} (short : values.length < 2 ^ 31)
      (all : ∀ value ∈ values, Printable value) : Printable (.array values)
  | object {members : List (List Byte × Value)} (distinct : (members.map Prod.fst).Nodup)
      (names : ∀ entry ∈ members, Plain entry.1)
      (all : ∀ entry ∈ members, Printable entry.2) : Printable (.object members)

end Double

/-! Strings. -/

theorem escaped_plain (c : Byte)
    (plain : (!accept.contains c && !(isControlCharacter c || c == 0)) = true) :
    escaped c = [c] ∧ c ≠ 0 := by
  revert c
  exact forall_byte (by decide +kernel)

theorem escaped_high (c : Byte) (quote : c ≠ 34) (slash : c ≠ 92) (high : 32 ≤ c.toNat) :
    escaped c = [c] := by
  revert c
  exact forall_byte (by decide +kernel)

theorem escaped_low (code : Nat) (low : code < 32 ∨ code = 34 ∨ code = 92) :
    (escaped (UInt8.ofNat code) = [92, (escaped (UInt8.ofNat code)).getD 1 0] ∧
        simple ((escaped (UInt8.ofNat code)).getD 1 0) = some (Char.ofNat code)) ∨
      (escaped (UInt8.ofNat code) = 92 :: 117 :: (escaped (UInt8.ofNat code)).drop 2 ∧
        hex4 ((escaped (UInt8.ofNat code)).drop 2) = some code) := by
  rcases low with low | low | low
  · revert code
    decide +kernel
  · subst low
    decide +kernel
  · subst low
    decide +kernel

theorem char_low (char : Char) (special : ¬ Unescaped char) :
    (char.toNat < 32 ∨ char.toNat = 34 ∨ char.toNat = 92) ∧
      String.utf8EncodeChar char = [UInt8.ofNat char.toNat] := by
  have low : char.toNat < 32 ∨ char.toNat = 34 ∨ char.toNat = 92 := by
    by_contra high
    simp only [not_or, Nat.not_lt] at high
    refine special ⟨high.1, ?_, ?_⟩ <;> rintro rfl
    · exact high.2.1 rfl
    · exact high.2.2 rfl
  refine ⟨low, ?_⟩
  have small : char.val.toNat ≤ 127 := by
    have same : char.val.toNat = char.toNat := rfl
    omega
  unfold String.utf8EncodeChar
  dsimp only
  rw [if_pos small]
  rfl

theorem high_bytes (char : Char) (plain : Unescaped char) :
    ∀ byte ∈ String.utf8EncodeChar char, 32 ≤ byte.toNat := by
  have high : 32 ≤ char.val.toNat := plain.1
  unfold String.utf8EncodeChar
  dsimp only
  split
  · simp only [List.mem_singleton, forall_eq, UInt8.toNat_ofNat']
    omega
  · split
    · simp only [List.mem_cons, List.not_mem_nil, or_false, forall_eq_or_imp, forall_eq,
        UInt8.toNat_ofNat']
      omega
    · split
      · simp only [List.mem_cons, List.not_mem_nil, or_false, forall_eq_or_imp, forall_eq,
          UInt8.toNat_ofNat']
        omega
      · simp only [List.mem_cons, List.not_mem_nil, or_false, forall_eq_or_imp, forall_eq,
          UInt8.toNat_ofNat']
        omega

theorem content_escaped (chars : List Char) : Content ((utf8 chars).flatMap escaped) chars := by
  induction chars with
  | nil => exact .done
  | cons char chars ih =>
      rw [utf8_cons, List.flatMap_append]
      by_cases plain : Unescaped char
      · have same : (String.utf8EncodeChar char).flatMap escaped = String.utf8EncodeChar char := by
          refine (List.flatMap_congr fun byte member => ?_).trans (List.flatMap_singleton' _)
          obtain ⟨quote, slash⟩ := plain_bytes char plain byte member
          exact escaped_high byte quote slash (high_bytes char plain byte member)
        rw [same]
        exact .unescaped plain ih
      · obtain ⟨low, single⟩ := char_low char plain
        rw [single, List.flatMap_singleton]
        rcases escaped_low char.toNat low with ⟨shape, named⟩ | ⟨shape, four⟩
        · rw [shape]
          rw [Char.ofNat_toNat] at named
          exact .escaped named ih
        · rw [shape]
          exact .unit four ih

theorem quoted_plain (value : List Byte) (short : value.length < 2 ^ 30) :
    quoted value = 34 :: (value.flatMap escaped ++ [34]) := by
  unfold quoted valueToQuotedStringN
  rw [Nat.mod_eq_of_lt (by omega), List.take_length]
  split
  · rename_i all
    have each (c : Byte) (member : c ∈ value) := escaped_plain c (List.all_eq_true.mp all c member)
    have same : value.flatMap escaped = value :=
      (List.flatMap_congr fun c member => (each c member).1).trans (List.flatMap_singleton' _)
    rw [same, cstr_eq value fun zero => (each 0 zero).2 rfl]
  · rfl

/-! Numbers. -/

theorem decimalText_eq (value : Nat) : decimalText value = text (toString value) :=
  (ReadableReply.text_toString value).symm

def whole (value : Nat) : Run where
  digits := decimalText value
  nonempty := by
    rw [decimalText_eq]
    exact ReadableReply.length_some value
  all := by
    rw [decimalText_eq]
    exact ReadableReply.length_digits value

theorem whole_value (value : Nat) : decimal (whole value).digits = value := by
  show decimal (decimalText value) = value
  rw [decimalText_eq]
  exact ReadableReply.decimal_length value

section Written

variable (double : List Byte → Option (List Byte))

theorem integer_written (value : Int) (low : -2 ^ 63 ≤ value) (high : value < 2 ^ 64) :
    Element double 1 (valueToString value) (integer value) := by
  let number : Number := ⟨value < 0, whole value.natAbs, none, none⟩
  have shape : valueToString value = number.text := by
    simp only [valueToString, Number.text, number, fractionText, exponentText, List.append_nil,
      decide_eq_true_eq]
    split <;> rfl
  have exact : number.integer = some value := by
    simp only [Number.integer, number, Option.isNone_none, and_self, ↓reduceIte, whole_value,
      decide_eq_true_eq, Option.some.injEq]
    split <;> omega
  rw [shape]
  refine .number number ?_
  rw [Number.value, exact]
  unfold integer
  by_cases small : value < 2 ^ 31
  · simp only [small, and_true, if_pos low, ↓reduceIte]
  · have large : 0 ≤ value ∧ value < 2 ^ 64 := by omega
    simp only [small, and_false, ↓reduceIte, if_pos large]

/-- A fraction or an exponent shows in the text. -/
theorem number_integral (number : Number) : number.integer = integral number.text := by
  obtain ⟨minus, whole, fraction, exponent⟩ := number
  have nonempty := whole.nonempty
  have first : whole.digits.head? ≠ some 45 := fun same =>
    absurd (whole.all 45 (List.mem_of_mem_head? same)) (by decide)
  have signed : integral (Number.text ⟨minus, whole, fraction, exponent⟩) =
      if (whole.digits ++ (fractionText fraction ++ exponentText exponent)).all isDigit then
        some (if minus then
            -(decimal (whole.digits ++ (fractionText fraction ++ exponentText exponent)) : Int)
          else decimal (whole.digits ++ (fractionText fraction ++ exponentText exponent)))
      else none := by
    cases minus with
    | true => simp [integral, Number.text, nonempty]
    | false => simp [integral, Number.text, nonempty, first]
  rw [signed]
  by_cases plain : fraction.isNone ∧ exponent.isNone
  · obtain ⟨rfl, rfl⟩ := And.imp Option.isNone_iff_eq_none.mp Option.isNone_iff_eq_none.mp plain
    simp only [Number.integer, Option.isNone_none, and_self, if_true, fractionText, exponentText,
      List.append_nil, if_pos (List.all_eq_true.mpr whole.all)]
  · have other : ∃ digit ∈ fractionText fraction ++ exponentText exponent,
        isDigit digit = false := by
      cases fraction with
      | some run => exact ⟨46, List.mem_append_left _ (List.mem_cons_self ..), rfl⟩
      | none =>
          cases exponent with
          | none => exact absurd ⟨rfl, rfl⟩ plain
          | some exponent =>
              refine ⟨exponent.mark, List.mem_append_right _ (List.mem_cons_self ..), ?_⟩
              rcases exponent.marked with mark | mark <;> rw [mark] <;> rfl
    obtain ⟨digit, member, fails⟩ := other
    rw [Number.integer, if_neg plain, if_neg]
    intro all
    rw [List.all_eq_true.mp all digit (List.mem_append_right _ member)] at fails
    cases fails

theorem real_written (reprints : Reprints double) (shown : List Byte)
    (print : ∃ bytes, double bytes = some shown) :
    Element double 1 shown (reread (.real shown)) := by
  obtain ⟨bytes, print⟩ := print
  obtain ⟨⟨number, same⟩, again⟩ := reprints bytes shown print
  subst same
  refine .number number ?_
  rw [Number.value, number_integral, reread]
  cases integral number.text with
  | none => simp only [again, Option.map_some]
  | some value =>
      unfold integer
      simp only [again, Option.map_some]
      split_ifs <;> first | rfl | omega

theorem padded_of {calls : Nat} {bytes : List Byte} {value : Value} (gap : List Byte)
    (blank : Blank gap) (element : Element double calls bytes value) :
    Padded double calls (gap ++ bytes) value := by
  have padded : Padded double calls (gap ++ (bytes ++ [])) value :=
    .between blank element fun _ member => by cases member
  rwa [List.append_nil] at padded

theorem string_written (value : List Byte) (plain : Plain value) :
    Element double 1 (quoted value) (.string value) := by
  obtain ⟨⟨chars, same⟩, short⟩ := plain
  subst same
  rw [quoted_plain _ short]
  exact .string (content_escaped chars)

variable (yaml : Bool)

theorem elements_written (values : List Value) (nonempty : values ≠ [])
    (all : ∀ value ∈ values,
      Element double (depth value) (writeValue yaml value) (reread value)) :
    Elements double (depthValues values) (separated (writeValues yaml values))
      (rereadValues values) := by
  induction values with
  | nil => exact absurd rfl nonempty
  | cons value rest ih =>
      have padded := padded_of double [] (fun _ member => by cases member)
        (all value (List.mem_cons_self ..))
      cases rest with
      | nil =>
          rw [depthValues, depthValues, Nat.max_zero]
          exact .last padded
      | cons next later =>
          have more := ih (List.cons_ne_nil _ _) fun other member =>
            all other (List.mem_cons_of_mem _ member)
          rw [depthValues]
          exact .more padded more

theorem member_written (entry : List Byte × Value) (plain : Plain entry.1)
    (element : Element double (depth entry.2) (writeValue yaml entry.2) (reread entry.2)) :
    Member double (depth entry.2) (member yaml (entry.1, writeValue yaml entry.2))
      (entry.1, reread entry.2) := by
  obtain ⟨name, value⟩ := entry
  obtain ⟨⟨chars, same⟩, short⟩ := plain
  dsimp only at same short element
  subst same
  have empty : Blank [] := fun _ member => by cases member
  have space : Blank (if yaml then [32] else []) := by
    split
    · simp [Blank, isBlank]
    · exact empty
  have named := Member.named empty (content_escaped chars) empty
    (padded_of double _ space element)
  have shape : member yaml (utf8 chars, writeValue yaml value) = [] ++ 34 ::
      ((utf8 chars).flatMap escaped ++ 34 ::
        ([] ++ 58 :: ((if yaml then [32] else []) ++ writeValue yaml value))) := by
    rw [member, quoted_plain _ short]
    cases yaml <;> simp [text]
  rw [shape]
  exact named

theorem members_written (entries : List (List Byte × Value)) (nonempty : entries ≠ [])
    (all : ∀ entry ∈ entries, Plain entry.1 ∧
      Element double (depth entry.2) (writeValue yaml entry.2) (reread entry.2)) :
    Members double (depthMembers entries)
      (separated ((writeMembers yaml entries).map (member yaml)))
      (rereadMembers entries) := by
  induction entries with
  | nil => exact absurd rfl nonempty
  | cons entry rest ih =>
      obtain ⟨plain, element⟩ := all entry (List.mem_cons_self ..)
      have here := member_written double yaml entry plain element
      cases rest with
      | nil =>
          rw [depthMembers, depthMembers, Nat.max_zero]
          exact .last here
      | cons next later =>
          have more := ih (List.cons_ne_nil _ _) fun other member =>
            all other (List.mem_cons_of_mem _ member)
          rw [depthMembers]
          exact .more here more

end Written

/-! The order of the members. -/

theorem depth_perm {members entries : List (List Byte × Value)} (perm : members.Perm entries) :
    depthMembers members = depthMembers entries := by
  induction perm with
  | nil => rfl
  | cons entry _ ih => rw [depthMembers, depthMembers, ih]
  | swap one other rest =>
      simp only [depthMembers]
      omega
  | trans _ _ first second => exact first.trans second

theorem writeMembers_map (yaml : Bool) (members : List (List Byte × Value)) :
    writeMembers yaml members =
      members.map fun entry => (entry.1, writeValue yaml entry.2) := by
  induction members with
  | nil => rfl
  | cons entry rest ih => rw [writeMembers, ih, List.map_cons]

theorem rereadMembers_map (members : List (List Byte × Value)) :
    rereadMembers members = members.map fun entry => (entry.1, reread entry.2) := by
  induction members with
  | nil => rfl
  | cons entry rest ih => rw [rereadMembers, ih, List.map_cons]

theorem sorted_map {α β : Type} (value : α → β) (members : List (List Byte × α)) :
    sorted (members.map fun entry => (entry.1, value entry.2)) =
      (sorted members).map fun entry => (entry.1, value entry.2) :=
  (List.map_insertionSort (fun one other : List Byte × α => one.1 ≤ other.1)
    (fun one other : List Byte × β => one.1 ≤ other.1) (fun entry => (entry.1, value entry.2))
    members fun _ _ _ _ => Iff.rfl).symm

theorem assign_new {α : Type} (name : List Byte) (value : α) (members : List (List Byte × α))
    (new : name ∉ members.map Prod.fst) :
    assign name value members = members ++ [(name, value)] := by
  induction members with
  | nil => rfl
  | cons entry rest ih =>
      simp only [List.map_cons, List.mem_cons, not_or] at new
      rw [assign, if_neg (Ne.symm new.1), ih new.2, List.cons_append]

theorem gathered_new (members more : List (List Byte × Value))
    (distinct : ((members ++ more).map Prod.fst).Nodup) :
    gathered members more = members ++ more := by
  induction more generalizing members with
  | nil => exact (List.append_nil _).symm
  | cons entry more ih =>
      have new : entry.1 ∉ members.map Prod.fst := by
        rw [List.map_append, List.map_cons] at distinct
        intro old
        exact (List.nodup_append.mp distinct).2.2 _ old _ (List.mem_cons_self ..) rfl
      have next : assign entry.1 entry.2 members = members ++ [entry] :=
        assign_new _ _ _ new
      have together := ih (members ++ [entry]) (by simpa using distinct)
      rw [gathered, List.foldl_cons, next]
      exact together.trans (by simp)

section Document

variable (double : List Byte → Option (List Byte)) (yaml : Bool)

/-- By induction on the value; the members are written in the order of the map. -/
theorem element_written (reprints : Reprints double) (value : Value)
    (printable : Printable double value) :
    Element double (depth value) (writeValue yaml value) (reread value) := by
  induction printable with
  | null => exact .null
  | int low high => exact integer_written double _ low (by omega)
  | @uint value high =>
      have same : decimalText value = valueToString (value : Int) := by
        rw [valueToString, if_neg (by omega), Int.natAbs_natCast]
      rw [writeValue, same]
      exact integer_written double value (by omega) (by omega)
  | real print => exact real_written double reprints _ print
  | string plain => exact string_written double _ plain
  | boolean value =>
      cases value
      · exact .no
      · exact .yes
  | @array values short all ih =>
      -- `size` is an `int`, and the array short enough for it.
      have whole : (toInt values.length).toNat = values.length := by
        rw [toInt_eq _ (by omega) (by omega), Int.toNat_natCast]
      have length : (writeValues yaml values).length = values.length := by
        clear whole short all ih
        induction values with
        | nil => rfl
        | cons value rest ih => rw [writeValues, List.length_cons, ih, List.length_cons]
      rw [writeValue, whole, ← length, List.take_length, depth, reread]
      by_cases empty : values = []
      · subst empty
        exact @Element.emptyArray double [] fun _ member => by cases member
      · exact .array (elements_written double yaml values empty ih)
  | @object members distinct names all ih =>
      -- The members are written in the order of the map.
      have perm : (sorted members).Perm members := List.perm_insertionSort _ _
      have written := members_written double yaml (sorted members)
      rw [writeValue, writeMembers_map, sorted_map, ← writeMembers_map, depth, reread,
        rereadMembers_map, sorted_map, ← rereadMembers_map, ← depth_perm perm]
      by_cases empty : members = []
      · subst empty
        exact @Element.emptyObject double [] fun _ member => by cases member
      · have nonempty : sorted members ≠ [] := fun same => empty (by
          rw [same] at perm
          exact perm.symm.eq_nil)
        have object := Element.object (written nonempty fun entry member =>
          ⟨names entry (perm.mem_iff.mp member), ih entry (perm.mem_iff.mp member)⟩)
        rwa [gathered_new, List.nil_append] at object
        rw [List.nil_append, rereadMembers_map, List.map_map]
        exact (perm.map Prod.fst).nodup_iff.mpr distinct

theorem written_parsed (reprints : Reprints double) (value : Value)
    (printable : Printable double value) :
    ∃ rest, parse double (write yaml value) =
      (outcome (depth value) (reread value) rest).map Prod.fst := by
  have element := element_written double yaml reprints value printable
  have padded : Padded double (depth value) ([] ++ (writeValue yaml value ++ [10]))
      (reread value) :=
    .between (fun _ member => by cases member) element (by simp [Blank, isBlank])
  exact padded_parsed padded

/-- What is written is read back, or nests so deep that the reader throws. -/
theorem written_read (reprints : Reprints double) (value : Value)
    (printable : Printable double value) :
    parse double (write yaml value) =
      if depth value ≤ stackLimit_g then .ok (some (reread value))
      else .error .exception := by
  obtain ⟨rest, read⟩ := written_parsed double yaml reprints value printable
  rw [read, outcome]
  split <;> rfl

end Document

/-- The `double`s 1.5 and 3, from two texts of each. -/
def oneAndHalf (bytes : List Byte) : Option (List Byte) :=
  if bytes = text "1.50" ∨ bytes = text "1.5" then some (text "1.5")
  else if bytes = text "3.0" ∨ bytes = text "3" then some (text "3")
  else none

theorem oneAndHalf_reprints : Reprints oneAndHalf := by
  intro bytes shown print
  unfold oneAndHalf at print
  split at print
  · cases print
    let half : Number := ⟨false, ⟨[49], by decide, List.forall_mem_singleton.mpr rfl⟩,
      some ⟨[53], by decide, List.forall_mem_singleton.mpr rfl⟩, none⟩
    exact ⟨⟨half, by decide +kernel⟩, by decide +kernel⟩
  · obtain ⟨_, same⟩ := Option.ite_none_right_eq_some.mp print
    cases same
    let three : Number := ⟨false, ⟨[51], by decide, List.forall_mem_singleton.mpr rfl⟩, none, none⟩
    exact ⟨⟨three, by decide +kernel⟩, by decide +kernel⟩

/-- Two members out of order, an escape, a `UInt` that fits an `Int`, and two `double`s, one of
them whole. -/
theorem written_read_object :
    parse oneAndHalf (write false (.object [(text "b", .array [.uint 5, .real (text "1.5"),
        .real (text "3")]), (text "a", .string [34, 7])])) =
      .ok (some (.object [(text "a", .string [34, 7]),
        (text "b", .array [.int 5, .real (text "1.5"), .int 3])])) := by
  have letter (char : Char) (short : (utf8 [char]).length < 2 ^ 30) : Plain (utf8 [char]) :=
    ⟨⟨[char], rfl⟩, short⟩
  have half : Printable oneAndHalf (.real (text "1.5")) :=
    .real ⟨text "1.50", by decide +kernel⟩
  have three : Printable oneAndHalf (.real (text "3")) :=
    .real ⟨text "3.0", by decide +kernel⟩
  have array : Printable oneAndHalf (.array [.uint 5, .real (text "1.5"), .real (text "3")]) :=
    .array (by decide) (List.forall_mem_cons.mpr ⟨.uint (by decide),
      List.forall_mem_cons.mpr ⟨half, List.forall_mem_singleton.mpr three⟩⟩)
  have string : Printable oneAndHalf (.string [34, 7]) :=
    .string ⟨⟨[Char.ofNat 34, Char.ofNat 7], by decide⟩, by decide⟩
  refine (written_read oneAndHalf false oneAndHalf_reprints _ (.object (by decide)
    (List.forall_mem_cons.mpr ⟨letter 'b' (by decide),
      List.forall_mem_singleton.mpr (letter 'a' (by decide))⟩)
    (List.forall_mem_cons.mpr ⟨array, List.forall_mem_singleton.mpr string⟩))).trans ?_
  exact if_pos (by decide +kernel)

/-! What the reader makes can be written. -/

section Rewritten

variable (double : List Byte → Option (List Byte))

structure Writable (calls : Nat) (value : Value) : Prop where
  printable : Printable double value
  within : depth value ≤ calls

variable {double}

theorem Writable.more {calls deep : Nat} {value : Value} (writable : Writable double calls value)
    (more : calls ≤ deep) : Writable double deep value :=
  ⟨writable.printable, writable.within.trans more⟩

theorem content_length {content : List Byte} {chars : List Char} (holds : Content content chars) :
    (utf8 chars).length ≤ content.length := by
  have four (char : Char) : (String.utf8EncodeChar char).length ≤ 4 := by
    rw [String.length_utf8EncodeChar]
    exact char.utf8Size_le_four
  have digits (digits : List Byte) (value : Nat) (read : hex4 digits = some value) :
      digits.length = 4 := by
    obtain ⟨⟨a, b, c, d, same, _⟩, _⟩ := hex4_parts digits value read
    rw [same]
    rfl
  induction holds with
  | done => exact le_rfl
  | @unescaped char rest value plain more ih =>
      rw [utf8_cons, List.length_append, List.length_append]
      omega
  | @escaped letter char rest value named more ih =>
      obtain ⟨_, byte, _, single⟩ := simple_read letter char named
      rw [utf8_cons, single]
      simp only [List.length_append, List.length_cons, List.length_nil]
      omega
  | @unit shown char rest value read more ih =>
      have size := digits shown _ read
      have small := four char
      simp only [utf8_cons, List.length_append, List.length_cons]
      omega
  | @pair upper lower char rest value high low first second _ _ _ more ih =>
      have size := digits upper _ first
      have small := four char
      simp only [utf8_cons, List.length_append, List.length_cons]
      omega

end Rewritten

end AsrServer.JsonWriter
