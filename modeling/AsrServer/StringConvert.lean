import AsrServer.Bytes
import AsrServer.PrefixCode

/-!
`string_convert` over GB18030: a four-byte character is replaced and capital letters are
made small. Both loops go over bytes, so they also find what they look for inside
characters, and the first does not look at the end of the string.
-/

namespace AsrServer.StringConvert

open Bytes PrefixCode

/-- The character that has no counterpart: `a1` to `a4`. -/
def unknown : List Byte := [0x81, 0x36, 0xa6, 0x31]

def substitute : List Byte := [0xa1, 0xa4]

/-- The test of the first loop, on the string from `i` on. -/
def window (src : List Byte) : Bool := 4 < src.length && src.take 4 == unknown

def convert_loop (str_src : List Byte) : List Byte :=
  match str_src with
  | [] => []
  | char :: rest =>
      if window (char :: rest) then substitute ++ convert_loop (rest.drop 3)
      else char :: convert_loop rest
termination_by str_src.length
decreasing_by all_goals grind

def small (char : Byte) : Byte := if 0x41 ≤ char ∧ char ≤ 0x5a then char + 32 else char

def string_convert (str_src : List Byte) : List Byte := (convert_loop str_src).map small

inductive GB18030 : List Byte → Prop where
  | one (byte : Byte) (ascii : byte < 0x80) : GB18030 [byte]
  | two (lead trail : Byte) (first : 0x81 ≤ lead ∧ lead ≤ 0xfe)
      (last : 0x40 ≤ trail ∧ trail ≤ 0xfe ∧ trail ≠ 0x7f) : GB18030 [lead, trail]
  | four (first second third fourth : Byte) (lead : 0x81 ≤ first ∧ first ≤ 0xfe)
      (digit : 0x30 ≤ second ∧ second ≤ 0x39) (trail : 0x81 ≤ third ∧ third ≤ 0xfe)
      (last : 0x30 ≤ fourth ∧ fourth ≤ 0x39) : GB18030 [first, second, third, fourth]

def normal (char : List Byte) : List Byte :=
  if char = unknown then substitute else if char.length = 1 then char.map small else char

structure Plain (chars : List (List Byte)) : Prop where
  last : chars.getLast? ≠ some unknown
  trail : ∀ char ∈ chars, 1 < char.length → char.map small = char
  inside : ∀ front char back, chars = front ++ char :: back → ∀ k, 0 < k → k < char.length →
    window (char.drop k ++ back.flatten) = false

/-! Characters. -/

theorem gb18030_code : IsPrefixCode ({char | GB18030 char} : Language Byte) := by
  constructor
  · intro empty
    cases empty
  · intro word member other among within
    cases member with
    | one byte ascii =>
        cases among with
        | one other small => simpa using within
        | two lead trail first last =>
            have same := (List.cons_prefix_cons.mp within).1
            grind
        | four first second third fourth lead digit trail last =>
            have same := (List.cons_prefix_cons.mp within).1
            grind
    | two lead trail first last =>
        cases among with
        | one other small =>
            have same := (List.cons_prefix_cons.mp within).1
            grind
        | two other second _ _ => simpa using within
        | four other second third fourth _ digit _ _ =>
            have same := (List.cons_prefix_cons.mp (List.cons_prefix_cons.mp within).2).1
            grind
    | four first second third fourth lead digit trail last =>
        exact within.eq_of_length_le (by
          cases among <;> simp)

theorem unknown_character : GB18030 unknown :=
  .four 0x81 0x36 0xa6 0x31 (by decide) (by decide) (by decide) (by decide)

theorem window_first (char rest : List Byte) (member : GB18030 char)
    (found : window (char ++ rest) = true) : char = unknown ∧ rest ≠ [] := by
  simp only [window, Bool.and_eq_true, decide_eq_true_eq, beq_iff_eq] at found
  obtain ⟨long, front⟩ := found
  have split : char ++ rest = unknown ++ (char ++ rest).drop 4 := by
    rw [← front, List.take_append_drop]
  obtain ⟨rfl, behind⟩ := gb18030_code.first member unknown_character split
  refine ⟨rfl, ?_⟩
  rintro rfl
  exact absurd long (by decide)

theorem window_unknown (rest : List Byte) (more : rest ≠ []) : window (unknown ++ rest) = true := by
  have positive := List.length_pos_iff.mpr more
  simp [window, unknown]
  omega

theorem window_head (char : Byte) (rest : List Byte) (found : window (char :: rest) = true) :
    char = 0x81 := by
  simp only [window, unknown, Bool.and_eq_true, beq_iff_eq, List.take_succ_cons,
    List.cons.injEq] at found
  exact found.2.1

/-! The first loop. -/

theorem convert_nil : convert_loop [] = [] := by
  rw [convert_loop]

theorem convert_window (rest : List Byte) (found : window (unknown ++ rest) = true) :
    convert_loop (unknown ++ rest) = substitute ++ convert_loop rest := by
  rw [unknown, List.cons_append, convert_loop, if_pos (by simpa [unknown] using found)]
  rfl

theorem convert_other (char : Byte) (rest : List Byte) (missing : window (char :: rest) = false) :
    convert_loop (char :: rest) = char :: convert_loop rest := by
  rw [convert_loop, if_neg (by rw [missing]; decide)]

theorem convert_skip (front rest : List Byte)
    (missing : ∀ k < front.length, window (front.drop k ++ rest) = false) :
    convert_loop (front ++ rest) = front ++ convert_loop rest := by
  induction front with
  | nil => rfl
  | cons char front ih =>
      have first : window (char :: (front ++ rest)) = false := missing 0 (by simp)
      rw [List.cons_append, convert_other char _ first, ih, List.cons_append]
      intro k inside
      exact missing (k + 1) (by simpa using inside)

/-! One character. -/

theorem normal_length (char : List Byte) (other : char ≠ unknown) :
    (normal char).length = char.length := by
  rw [normal, if_neg other]
  split
  · rw [List.length_map]
  · rfl

theorem small_eq_iff (char : List Byte) (member : GB18030 char) (other : char ≠ unknown) :
    char.map small = normal char ↔ (1 < char.length → char.map small = char) := by
  rw [normal, if_neg other]
  cases member with
  | one byte ascii => simp
  | two lead trail first last => simp
  | four first second third fourth lead digit trail last => simp

def Solid (char rest : List Byte) : Prop :=
  ∀ k, 0 < k → k < char.length → window (char.drop k ++ rest) = false

theorem convert_solid (char rest : List Byte) (member : GB18030 char) (other : char ≠ unknown)
    (solid : Solid char rest) : convert_loop (char ++ rest) = char ++ convert_loop rest := by
  apply convert_skip
  intro k inside
  rcases Nat.eq_zero_or_pos k with rfl | positive
  · rw [List.drop_zero, Bool.eq_false_iff]
    exact fun found => other (window_first char rest member found).1
  · exact solid k positive inside

/-- At the first window inside a character, something else is put for its 0x81. -/
theorem convert_broken (char rest : List Byte) (member : GB18030 char) (other : char ≠ unknown)
    (broken : ¬ Solid char rest) :
    ∃ k : Nat, 0 < k ∧ (convert_loop (char ++ rest))[k]? = some 0xa1 ∧
      char[k]? = some 0x81 := by
  simp only [Solid, not_forall, Bool.not_eq_false] at broken
  -- The first place inside the character at which a window begins.
  obtain ⟨positive, inside, found⟩ := Nat.find_spec broken
  have first := fun k => @Nat.find_min _ _ broken k
  generalize Nat.find broken = k at positive inside found first
  have split := List.take_append_drop k char
  have missing : ∀ j < (char.take k).length,
      window ((char.take k).drop j ++ (char.drop k ++ rest)) = false := by
    intro j before
    rw [← List.append_assoc, ← List.drop_append_of_le_length (Nat.le_of_lt before), split]
    rw [List.length_take_of_le (Nat.le_of_lt inside)] at before
    rw [Bool.eq_false_iff]
    intro early
    rcases Nat.eq_zero_or_pos j with rfl | later
    · exact other (window_first char rest member early).1
    · exact first j before ⟨later, by omega, early⟩
  have passed := convert_skip (char.take k) (char.drop k ++ rest) missing
  rw [← List.append_assoc, split] at passed
  have length : (char.take k).length = k := List.length_take_of_le (Nat.le_of_lt inside)
  refine ⟨k, positive, ?_, ?_⟩
  · have front : (char.drop k ++ rest).take 4 = unknown := by
      simp only [window, Bool.and_eq_true, beq_iff_eq] at found
      exact found.2
    have begins := List.take_append_drop 4 (char.drop k ++ rest)
    rw [front] at begins
    rw [passed, ← begins, convert_window _ (by rw [begins]; exact found),
      List.getElem?_append_right (by omega), length, Nat.sub_self]
    rfl
  · rw [List.drop_eq_getElem_cons inside, List.cons_append] at found
    rw [List.getElem?_eq_getElem inside, window_head _ _ found]

/-! A text. -/

theorem plain_nil : Plain [] where
  last := by decide
  trail := by simp
  inside := by
    intro front char back split
    simp at split

theorem plain_cons (char : List Byte) (chars : List (List Byte)) :
    Plain (char :: chars) ↔ (char = unknown → chars ≠ []) ∧
      (1 < char.length → char.map small = char) ∧ Solid char chars.flatten ∧ Plain chars := by
  constructor
  · intro plain
    refine ⟨?_, plain.trail char List.mem_cons_self, plain.inside [] char chars rfl, ?_, ?_, ?_⟩
    · rintro rfl rfl
      exact plain.last rfl
    · intro last
      apply plain.last
      rw [List.getLast?_cons, last, Option.getD_some]
    · intro other member
      exact plain.trail other (List.mem_cons_of_mem _ member)
    · intro front other back split
      exact plain.inside (char :: front) other back (by rw [split, List.cons_append])
  · rintro ⟨ends, own, solid, rest⟩
    constructor
    · intro last
      rw [List.getLast?_cons] at last
      cases chars with
      | nil => exact ends (Option.some.inj last) rfl
      | cons other chars =>
          apply rest.last
          rw [List.getLast?_cons] at last ⊢
          exact last
    · exact List.forall_mem_cons.mpr ⟨own, rest.trail⟩
    · intro front other back split
      cases front with
      | nil =>
          cases split
          exact solid
      | cons first front =>
          rw [List.cons_append, List.cons.injEq] at split
          exact rest.inside front other back split.2

theorem solid_unknown (rest : List Byte) : Solid unknown rest := by
  intro k positive inside
  have length : unknown.length = 4 := by decide
  rw [Bool.eq_false_iff]
  intro found
  obtain rfl | rfl | rfl : k = 1 ∨ k = 2 ∨ k = 3 := by omega
  · exact absurd (window_head _ _ found) (by decide)
  · exact absurd (window_head _ _ found) (by decide)
  · exact absurd (window_head _ _ found) (by decide)

theorem converts_unknown (chars : List (List Byte)) (members : ∀ other ∈ chars, GB18030 other) :
    string_convert (unknown :: chars).flatten = ((unknown :: chars).map normal).flatten ↔
      chars ≠ [] ∧ string_convert chars.flatten = (chars.map normal).flatten := by
  have put : normal unknown = substitute.map small := by decide
  rw [List.flatten_cons, List.map_cons, List.flatten_cons, string_convert]
  cases chars with
  | nil =>
      have kept : convert_loop unknown = unknown := by
        have solid := convert_skip unknown [] (by decide)
        rwa [convert_nil, List.append_nil] at solid
      rw [List.flatten_nil, List.append_nil, kept]
      exact iff_of_false (by decide) (fun both => both.1 rfl)
  | cons other chars =>
      have more : (other :: chars).flatten ≠ [] := by
        intro empty
        rw [List.flatten_cons] at empty
        exact gb18030_code.solid
          ((List.append_eq_nil_iff.mp empty).1 ▸ members other List.mem_cons_self)
      rw [convert_window _ (window_unknown _ more), List.map_append, put,
        List.append_cancel_left_eq]
      exact (and_iff_right (List.cons_ne_nil _ _)).symm

theorem converts_cons (char : List Byte) (chars : List (List Byte)) (member : GB18030 char)
    (members : ∀ other ∈ chars, GB18030 other) :
    string_convert (char :: chars).flatten = ((char :: chars).map normal).flatten ↔
      (char = unknown → chars ≠ []) ∧ (1 < char.length → char.map small = char) ∧
        Solid char chars.flatten ∧
          string_convert chars.flatten = (chars.map normal).flatten := by
  by_cases same : char = unknown
  · subst same
    have own : unknown.map small = unknown := by decide
    rw [converts_unknown chars members]
    simp [own, solid_unknown]
  · rw [List.flatten_cons, List.map_cons, List.flatten_cons, string_convert]
    simp only [same, false_implies, true_and]
    by_cases solid : Solid char chars.flatten
    · have lengths : (char.map small).length = (normal char).length := by
        rw [List.length_map, normal_length char same]
      rw [convert_solid char _ member same solid, List.map_append, ← small_eq_iff char member same]
      simp only [solid, true_and]
      constructor
      · intro equal
        exact List.append_inj equal lengths
      · rintro ⟨here, later⟩
        rw [here, ← later]
        rfl
    -- A window inside the character: its 0x81 becomes 0xa1 and stays in place.
    · simp only [solid, false_and, and_false, iff_false]
      intro equal
      obtain ⟨k, positive, put, here⟩ := convert_broken char chars.flatten member same solid
      have inside := (List.getElem?_eq_some_iff.mp here).1
      have kept : normal char = char := by
        rw [normal, if_neg same, if_neg (by omega)]
      have first := congrArg (fun bytes => bytes[k]?) equal
      rw [kept, List.getElem?_map, put, List.getElem?_append_left inside, here] at first
      exact absurd first (by decide)

/-- A text is normalised if and only if no bytes in it are taken for characters. -/
theorem converts_iff (chars : List (List Byte)) (members : ∀ char ∈ chars, GB18030 char) :
    string_convert chars.flatten = (chars.map normal).flatten ↔ Plain chars := by
  induction chars with
  | nil =>
      simp only [plain_nil, iff_true, List.flatten_nil, List.map_nil]
      rw [string_convert, convert_nil, List.map_nil]
  | cons char chars ih =>
      obtain ⟨member, members⟩ := List.forall_mem_cons.mp members
      rw [converts_cons char chars member members, plain_cons, ih members]

theorem converts_example :
    string_convert [unknown, [0x41], [0xc4, 0xe3]].flatten = [0xa1, 0xa4, 0x61, 0xc4, 0xe3] := by
  have members : ∀ char ∈ [unknown, [0x41], [0xc4, 0xe3]], GB18030 char := by
    simp only [List.forall_mem_cons, List.not_mem_nil, false_implies, implies_true, and_true]
    exact ⟨unknown_character, .one 0x41 (by decide), .two 0xc4 0xe3 (by decide) (by decide)⟩
  have plain : Plain [unknown, [0x41], [0xc4, 0xe3]] := by
    rw [plain_cons, plain_cons, plain_cons]
    refine ⟨by decide, by decide, solid_unknown _, by decide, by decide, ?_, by decide, by decide,
      ?_, plain_nil⟩
    · intro k positive inside
      exact absurd inside (by rw [List.length_singleton]; omega)
    · intro k positive inside
      obtain rfl : k = 1 := by
        simp only [List.length_cons, List.length_nil] at inside
        omega
      decide
  rw [(converts_iff _ members).mpr plain]
  decide

/-- The second byte of a character is made small, the character at the end is left, and one
is found between two others. -/
theorem characters_broken :
    string_convert [[0x81, 0x41]].flatten ≠ ([[0x81, 0x41]].map normal).flatten ∧
      string_convert [unknown].flatten ≠ ([unknown].map normal).flatten ∧
        string_convert [[0xb0, 0x81], [0x36], [0xa6, 0x31, 0x81, 0x30]].flatten ≠
          ([[0xb0, 0x81], [0x36], [0xa6, 0x31, 0x81, 0x30]].map normal).flatten := by
  have trail := convert_skip [0x81, 0x41] [] (by decide)
  have last := convert_skip unknown [] (by decide)
  have lead := convert_skip [0xb0] (unknown ++ [0x81, 0x30]) (by decide)
  have between := convert_window [0x81, 0x30] (by decide)
  have rest := convert_skip [0x81, 0x30] [] (by decide)
  simp only [convert_nil, List.append_nil] at trail last rest
  refine ⟨?_, ?_, ?_⟩
  · rw [List.flatten_singleton, string_convert, trail]
    decide
  · rw [List.flatten_singleton, string_convert, last]
    decide
  · rw [rest] at between
    change string_convert ([0xb0] ++ (unknown ++ [0x81, 0x30])) ≠ _
    rw [string_convert, lead, between]
    decide

end AsrServer.StringConvert
