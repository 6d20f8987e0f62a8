import AsrServer.RequestHeader

/-!
What `%d` and `%u` take of a text: white space, a sign and digits. `scanNumber` is described
by the parts it finds, which is what a reader of more bytes needs, and by the texts that it
accepts, which is what a grammar needs.
-/

namespace AsrServer.Numbers

open Bytes RequestHeader

/-! Runs. -/

def Stops (test : Byte → Bool) (rest : List Byte) : Prop := ∀ char ∈ rest.head?, test char = false

theorem takeWhile_run (test : Byte → Bool) (run rest : List Byte)
    (all : ∀ char ∈ run, test char = true) (stops : Stops test rest) :
    (run ++ rest).takeWhile test = run ∧ (run ++ rest).dropWhile test = rest := by
  rw [List.takeWhile_append_of_pos all, List.dropWhile_append_of_pos all]
  cases rest with
  | nil => exact ⟨List.append_nil _, rfl⟩
  | cons first later =>
      have fails : ¬ test first = true := by simp [stops first rfl]
      rw [List.takeWhile_cons_of_neg fails, List.dropWhile_cons_of_neg fails]
      exact ⟨List.append_nil _, rfl⟩

theorem stops_dropWhile (test : Byte → Bool) (input : List Byte) :
    Stops test (input.dropWhile test) := by
  intro char first
  have fails := List.head?_dropWhile_not test input
  rw [Option.mem_def.mp first] at fails
  simpa using fails

theorem stops_cons (test : Byte → Bool) (first : Byte) (rest : List Byte)
    (fails : test first = false) : Stops test (first :: rest) := by
  intro char same
  cases same
  exact fails

theorem skipSpace_gap (gap rest : List Byte) (blank : ∀ char ∈ gap, isSpace char = true)
    (stops : Stops isSpace rest) : skipSpace (gap ++ rest) = rest :=
  (takeWhile_run isSpace gap rest blank stops).2

theorem takeWhile_stops (string more : List Byte) (test : Byte → Bool)
    (stops : ∃ char ∈ string, test char = false) :
    (string ++ more).takeWhile test = string.takeWhile test := by
  obtain ⟨char, member, fails⟩ := stops
  rw [List.takeWhile_append, if_neg]
  intro same
  have whole := List.takeWhile_eq_self_iff.mp
    ((List.takeWhile_prefix test).eq_of_length same)
  rw [whole char member] at fails
  cases fails

/-! The parts of a number. -/

def negative (string : List Byte) : Bool := (skipSpace string).head? == some 45

def unsigned (string : List Byte) : List Byte :=
  if negative string || (skipSpace string).head? == some 43 then (skipSpace string).drop 1
  else skipSpace string

def digits (string : List Byte) : List Byte := (unsigned string).takeWhile isDigit

def number (string : List Byte) : Int :=
  if negative string then -(decimal (digits string) : Int) else decimal (digits string)

theorem scanNumber_parts (string : List Byte) :
    scanNumber string = if digits string = [] then none
      else some (number string, (unsigned string).drop (digits string).length) := rfl

theorem number_append (string more : List Byte) (nonempty : skipSpace string ≠ []) :
    negative (string ++ more) = negative string ∧
      unsigned (string ++ more) = unsigned string ++ more := by
  have skipped : skipSpace (string ++ more) = skipSpace string ++ more := by
    rw [skipSpace, List.dropWhile_append]
    rw [skipSpace] at nonempty
    rw [List.isEmpty_eq_false_iff.mpr nonempty]
    rfl
  cases shape : skipSpace string with
  | nil => exact absurd shape nonempty
  | cons first rest =>
      rw [shape] at skipped
      simp only [negative, unsigned, skipped, shape, List.cons_append, List.head?_cons,
        List.drop_one, List.tail_cons, true_and]
      split <;> rfl

theorem number_stops (string more : List Byte) (stops : ∃ char ∈ unsigned string,
    isDigit char = false) : number (string ++ more) = number string := by
  have nonempty : skipSpace string ≠ [] := by
    intro blank
    obtain ⟨char, member, _⟩ := stops
    simp [unsigned, negative, blank] at member
  have parts := number_append string more nonempty
  simp only [number, digits, parts.1, parts.2, takeWhile_stops _ more _ stops]

theorem digit_plain (char : Byte) (digit : isDigit char = true) :
    isSpace char = false ∧ char ≠ 45 ∧ char ≠ 43 ∧ char ≠ 0 := by
  revert char
  exact forall_byte (by decide +kernel)

theorem digits_clean (digits : List Byte) (all : ∀ char ∈ digits, isDigit char = true) :
    0 ∉ digits :=
  fun zero => (digit_plain 0 (all 0 zero)).2.2.2 rfl

theorem number_digits (more : List Byte) (all : ∀ char ∈ more, isDigit char = true) :
    negative more = false ∧ unsigned more = more := by
  cases more with
  | nil => exact ⟨rfl, rfl⟩
  | cons first rest =>
      have plain := digit_plain first (all first (by simp))
      have start : skipSpace (first :: rest) = first :: rest :=
        List.dropWhile_cons_of_neg (by simp [plain.1])
      simp [negative, unsigned, start, plain]

theorem digits_append (string more : List Byte)
    (through : ∀ char ∈ unsigned string, isDigit char = true)
    (nonempty : skipSpace string ≠ [] ∨ ∀ char ∈ more, isDigit char = true) :
    negative (string ++ more) = negative string ∧
      digits (string ++ more) = digits string ++ more.takeWhile isDigit := by
  have all := List.takeWhile_eq_self_iff.mpr through
  by_cases written : skipSpace string = []
  · have plain := number_digits more (nonempty.resolve_left (not_not.mpr written))
    have skipped : skipSpace (string ++ more) = skipSpace more := by
      rw [skipSpace] at written
      rw [skipSpace, List.dropWhile_append, written]
      rfl
    have same : negative (string ++ more) = negative more ∧
        unsigned (string ++ more) = unsigned more := by
      simp only [negative, unsigned, skipped]
      exact ⟨trivial, rfl⟩
    have nothing : negative string = false ∧ digits string = [] := by
      simp [negative, digits, unsigned, written]
    rw [digits, same.1, same.2, plain.1, plain.2, nothing.1, nothing.2]
    exact ⟨rfl, rfl⟩
  · have parts := number_append string more written
    rw [digits, parts.2, List.takeWhile_append_of_pos through, digits, all]
    exact ⟨parts.1, rfl⟩

theorem decimal_snoc (before : List Byte) (digit : Byte) :
    decimal (before ++ [digit]) = decimal before * 10 + (digit.toNat - 48) := by
  simp [decimal]

theorem decimal_append (before more : List Byte) (nonempty : more ≠ []) :
    decimal before * 10 ≤ decimal (before ++ more) := by
  induction more using List.reverseRecOn with
  | nil => exact absurd rfl nonempty
  | append_singleton front last ih =>
      rw [← List.append_assoc, decimal_snoc]
      cases front with
      | nil => simp
      | cons first rest =>
          have less := ih (List.cons_ne_nil _ _)
          omega

/-! The texts that are accepted. -/

/-- What `%d` and `%u` take. -/
structure Numeral where
  gap : List Byte
  sign : List Byte
  digits : List Byte
  blank : ∀ char ∈ gap, isSpace char = true
  signed : sign = [] ∨ sign = [43] ∨ sign = [45]
  plain : ∀ char ∈ digits, isDigit char = true
  nonempty : digits ≠ []

def Numeral.bytes (numeral : Numeral) : List Byte :=
  numeral.gap ++ numeral.sign ++ numeral.digits

def Numeral.value (numeral : Numeral) : Int :=
  if numeral.sign = [45] then -(decimal numeral.digits : Int) else decimal numeral.digits

theorem sign_split (string : List Byte) :
    ∃ sign, skipSpace string = sign ++ unsigned string ∧
      ((sign = [] ∧ negative string = false) ∨ (sign = [43] ∧ negative string = false) ∨
        (sign = [45] ∧ negative string = true)) := by
  cases shape : skipSpace string with
  | nil => exact ⟨[], by simp [unsigned, negative, shape]⟩
  | cons first rest =>
      by_cases minus : first = 45
      · exact ⟨[45], by simp [unsigned, negative, shape, minus]⟩
      · by_cases plus : first = 43
        · exact ⟨[43], by simp [unsigned, negative, shape, plus]⟩
        · exact ⟨[], by simp [unsigned, negative, shape, minus, plus]⟩

theorem Numeral.stops (numeral : Numeral) (rest : List Byte) :
    Stops isSpace (numeral.sign ++ numeral.digits ++ rest) := by
  rcases numeral.signed with bare | plus | minus
  · cases shape : numeral.digits with
    | nil => exact absurd shape numeral.nonempty
    | cons first later =>
        rw [bare]
        exact stops_cons _ _ _ (digit_plain first (numeral.plain first (by simp [shape]))).1
  · rw [plus]
    exact stops_cons _ _ _ (by decide)
  · rw [minus]
    exact stops_cons _ _ _ (by decide)

theorem Numeral.parts (numeral : Numeral) (rest : List Byte) :
    negative (numeral.bytes ++ rest) = decide (numeral.sign = [45]) ∧
      unsigned (numeral.bytes ++ rest) = numeral.digits ++ rest := by
  have start : skipSpace (numeral.bytes ++ rest) = numeral.sign ++ numeral.digits ++ rest := by
    rw [Numeral.bytes, List.append_assoc, List.append_assoc, ← List.append_assoc numeral.sign]
    exact skipSpace_gap _ _ numeral.blank (numeral.stops rest)
  rcases numeral.signed with bare | plus | minus
  · cases shape : numeral.digits with
    | nil => exact absurd shape numeral.nonempty
    | cons first later =>
        have usual := digit_plain first (numeral.plain first (by simp [shape]))
        simp [negative, unsigned, start, bare, shape, usual]
  · simp [negative, unsigned, start, plus]
  · simp [negative, unsigned, start, minus]

theorem reads_numeral (numeral : Numeral) (rest : List Byte) (stops : Stops isDigit rest) :
    digits (numeral.bytes ++ rest) = numeral.digits ∧
      number (numeral.bytes ++ rest) = numeral.value := by
  obtain ⟨sign, split⟩ := numeral.parts rest
  have all : digits (numeral.bytes ++ rest) = numeral.digits := by
    rw [digits, split]
    exact (takeWhile_run _ _ _ numeral.plain stops).1
  refine ⟨all, ?_⟩
  rw [number, all, sign]
  simp [Numeral.value]

theorem scanNumber_iff (input : List Byte) (value : Int) (rest : List Byte) :
    scanNumber input = some (value, rest) ↔ ∃ numeral : Numeral,
      input = numeral.bytes ++ rest ∧ value = numeral.value ∧ Stops isDigit rest := by
  rw [scanNumber_parts]
  constructor
  · intro scanned
    split at scanned
    · cases scanned
    · rename_i written
      cases scanned
      -- The parts of the numeral are what the scan has passed over.
      obtain ⟨sign, split, cases⟩ := sign_split input
      have digits_all : ∀ char ∈ digits input, isDigit char = true :=
        fun char member => List.mem_takeWhile_imp member
      have behind : (unsigned input).drop (digits input).length =
          (unsigned input).dropWhile isDigit := by
        conv_lhs => rw [← List.takeWhile_append_dropWhile (p := isDigit) (l := unsigned input)]
        exact List.drop_left
      refine ⟨⟨input.takeWhile isSpace, sign, digits input,
        fun char member => List.mem_takeWhile_imp member, ?_, digits_all, written⟩, ?_, ?_, ?_⟩
      · rcases cases with ⟨bare, _⟩ | ⟨plus, _⟩ | ⟨minus, _⟩
        · exact Or.inl bare
        · exact Or.inr (Or.inl plus)
        · exact Or.inr (Or.inr minus)
      · calc input
          _ = input.takeWhile isSpace ++ skipSpace input := List.takeWhile_append_dropWhile.symm
          _ = input.takeWhile isSpace ++ (sign ++ (digits input ++
                (unsigned input).dropWhile isDigit)) := by
              rw [split, digits, List.takeWhile_append_dropWhile]
          _ = _ := by
              rw [behind]
              simp [Numeral.bytes]
      · rw [Numeral.value, number]
        rcases cases with ⟨rfl, sign⟩ | ⟨rfl, sign⟩ | ⟨rfl, sign⟩ <;> simp [sign]
      · rw [behind]
        exact stops_dropWhile _ _
  · rintro ⟨numeral, rfl, rfl, stops⟩
    obtain ⟨all, value⟩ := reads_numeral numeral rest stops
    rw [all, if_neg numeral.nonempty, (numeral.parts rest).2, List.drop_left, value]

theorem Numeral.unique (numeral other : Numeral) (rest more : List Byte)
    (same : numeral.bytes ++ rest = other.bytes ++ more) (stops : Stops isDigit rest)
    (ends : Stops isDigit more) : numeral.value = other.value := by
  have first := (scanNumber_iff _ _ _).mpr ⟨numeral, rfl, rfl, stops⟩
  rw [same, (scanNumber_iff _ _ _).mpr ⟨other, rfl, rfl, ends⟩, Option.some.injEq,
    Prod.mk.injEq] at first
  exact first.1.symm

theorem scanNumber_isSome (input : List Byte) :
    (scanNumber input).isSome ↔ ∃ (numeral : Numeral) (rest : List Byte),
      input = numeral.bytes ++ rest := by
  constructor
  · intro scanned
    obtain ⟨⟨value, rest⟩, scanned⟩ := Option.isSome_iff_exists.mp scanned
    obtain ⟨numeral, split, _⟩ := (scanNumber_iff _ _ _).mp scanned
    exact ⟨numeral, rest, split⟩
  · rintro ⟨numeral, rest, rfl⟩
    have more : ∀ char ∈ numeral.digits ++ rest.takeWhile isDigit, isDigit char = true := by
      intro char member
      rcases List.mem_append.mp member with inside | behind
      · exact numeral.plain char inside
      · exact List.mem_takeWhile_imp behind
    let whole : Numeral := ⟨numeral.gap, numeral.sign, numeral.digits ++ rest.takeWhile isDigit,
      numeral.blank, numeral.signed, more, by simp [numeral.nonempty]⟩
    have scanned := (scanNumber_iff _ _ _).mpr
      ⟨whole, rfl, rfl, stops_dropWhile isDigit rest⟩
    have same : whole.bytes ++ rest.dropWhile isDigit = numeral.bytes ++ rest := by
      simp [Numeral.bytes, whole]
    rw [← same, scanned]
    rfl

/-! What is stored. -/

theorem storeInt_small (value : Nat) (fits : value < 2 ^ 31) : storeInt value = value := by
  have inside : max (-2 ^ 63) (min (value : Int) (2 ^ 63 - 1)) = value := by omega
  rw [storeInt, inside, toInt_eq _ (by omega) (by omega)]

end AsrServer.Numbers
