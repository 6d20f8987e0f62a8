import AsrServer.StringConvert

/-!
`ngram`: the runs of consecutive units of a converted text, each once. A unit is two bytes
behind a byte from 128 on and one byte otherwise. Two loops with byte positions, a word and
its length go through the text; `word_len` is the number of units once the next is appended.
It is an `int`, whose range a run cannot leave: all its shorter grams are kept by then, which
together are longer than any memory.
-/

namespace AsrServer.Ngram

open Bytes StringConvert

def space : Byte := 0x20

/-- `static_cast<unsigned int>(char) >= 128`, with the `char` promoted first. -/
def wide (char : Byte) : Bool := 128 ≤ char.toInt8.toInt32.toUInt32

def is_english_string (str : List Byte) : Bool := str.all fun char => !wide char

structure Found where
  ngram : List (List Byte)
  vec_ngram : List (List Byte)

def push (word_len : Nat) (tmp : List Byte) (found : Found) : Found :=
  if 2 ≤ word_len ∧ (word_len ≤ 5 ∨ is_english_string tmp) ∧ !found.ngram.contains tmp then
    ⟨tmp :: found.ngram, found.vec_ngram ++ [tmp]⟩
  else found

/-- The loop over `j`, on the string from there on. -/
def inner_loop (word_len : Nat) (tmp str : List Byte) (found : Found) : Found :=
  match str with
  | [] => found
  | char :: rest =>
      if char = space then found
      else if 5 < word_len ∧ ¬ is_english_string tmp then found
      else if wide char then
        inner_loop (word_len + 1) (tmp ++ (char :: rest).take 2) (rest.drop 1)
          (push word_len (tmp ++ (char :: rest).take 2) found)
      else
        inner_loop (word_len + 1) (tmp ++ [char]) rest (push word_len (tmp ++ [char]) found)
termination_by str.length
decreasing_by all_goals grind

/-- The loop over `i`. -/
def outer_loop (str : List Byte) (found : Found) : Found :=
  match str with
  | [] => found
  | char :: rest =>
      if char = space then outer_loop rest found
      else if wide char then outer_loop (rest.drop 1) (inner_loop 1 [] (char :: rest) found)
      else outer_loop rest (inner_loop 1 [] (char :: rest) found)
termination_by str.length
decreasing_by all_goals grind

def ngram (str_r : List Byte) : List (List Byte) :=
  let del_list : List (List Byte) := []
  (outer_loop (string_convert str_r) ⟨[], []⟩).vec_ngram.filter fun word => !del_list.contains word

def units (str : List Byte) : List (List Byte) :=
  match str with
  | [] => []
  | char :: rest =>
      if 128 ≤ char then (char :: rest).take 2 :: units (rest.drop 1) else [char] :: units rest
termination_by str.length
decreasing_by all_goals grind

def Gram (run : List (List Byte)) : Prop :=
  2 ≤ run.length ∧ [space] ∉ run ∧ (run.length ≤ 5 ∨ ∀ unit ∈ run, ∀ byte ∈ unit, byte < 128)

instance (run : List (List Byte)) : Decidable (Gram run) := inferInstanceAs (Decidable (_ ∧ _))

def grams (units : List (List Byte)) : List (List Byte) :=
  units.tails.flatMap fun rest => (rest.inits.filter (Gram ·)).map List.flatten

/-! Bytes and units. -/

theorem wide_eq (char : Byte) : wide char = decide (128 ≤ char) := by
  revert char
  exact forall_byte (by decide +kernel)

theorem english_iff (str : List Byte) :
    is_english_string str = true ↔ ∀ byte ∈ str, byte < 128 := by
  simp [is_english_string, wide_eq]

theorem english_flatten (run : List (List Byte)) :
    is_english_string run.flatten = true ↔ ∀ unit ∈ run, ∀ byte ∈ unit, byte < 128 := by
  rw [english_iff]
  simp only [List.mem_flatten, forall_exists_index, and_imp]
  exact ⟨fun all unit member byte inside => all byte unit member inside,
    fun all byte unit member inside => all unit member byte inside⟩

theorem units_wide (char : Byte) (rest : List Byte) (long : wide char = true) :
    units (char :: rest) = (char :: rest).take 2 :: units (rest.drop 1) := by
  rw [wide_eq, decide_eq_true_eq] at long
  rw [units, if_pos long]

theorem units_narrow (char : Byte) (rest : List Byte) (short : ¬ wide char = true) :
    units (char :: rest) = [char] :: units rest := by
  rw [wide_eq, decide_eq_true_eq] at short
  rw [units, if_neg short]

theorem take_two_other (char : Byte) (rest : List Byte) (other : char ≠ space) :
    (char :: rest).take 2 ≠ [space] := by
  rw [List.take_succ_cons]
  intro same
  exact other (List.cons.inj same).1

theorem singleton_other (char : Byte) (other : char ≠ space) : [char] ≠ [space] := by
  intro same
  exact other (List.cons.inj same).1

/-! The loops on units. -/

def inner_units (word_len : Nat) (tmp : List Byte) : List (List Byte) → Found → Found
  | [], found => found
  | unit :: rest, found =>
      if unit = [space] then found
      else if 5 < word_len ∧ ¬ is_english_string tmp then found
      else inner_units (word_len + 1) (tmp ++ unit) rest (push word_len (tmp ++ unit) found)

def outer_units : List (List Byte) → Found → Found
  | [], found => found
  | unit :: rest, found =>
      if unit = [space] then outer_units rest found
      else outer_units rest (inner_units 1 [] (unit :: rest) found)

theorem inner_loop_eq (word_len : Nat) (tmp str : List Byte) (found : Found) :
    inner_loop word_len tmp str found = inner_units word_len tmp (units str) found := by
  fun_induction inner_loop word_len tmp str found with
  | case1 word_len tmp found => rw [units, inner_units]
  | case2 word_len tmp found rest =>
      rw [units_narrow space rest (by decide), inner_units, if_pos rfl]
  | case3 word_len tmp found char rest other stop =>
      by_cases long : wide char = true
      · rw [units_wide char rest long, inner_units, if_neg (take_two_other char rest other),
          if_pos stop]
      · rw [units_narrow char rest long, inner_units, if_neg (singleton_other char other),
          if_pos stop]
  | case4 word_len tmp found char rest other go long ih =>
      rw [units_wide char rest long, inner_units, if_neg (take_two_other char rest other),
        if_neg go]
      exact ih
  | case5 word_len tmp found char rest other go short ih =>
      rw [units_narrow char rest short, inner_units, if_neg (singleton_other char other),
        if_neg go]
      exact ih

theorem outer_loop_eq (str : List Byte) (found : Found) :
    outer_loop str found = outer_units (units str) found := by
  fun_induction outer_loop str found with
  | case1 found => rw [units, outer_units]
  | case2 found rest ih =>
      rw [units_narrow space rest (by decide), outer_units, if_pos rfl]
      exact ih
  | case3 found char rest other long ih =>
      rw [ih, inner_loop_eq, units_wide char rest long, outer_units,
        if_neg (take_two_other char rest other)]
  | case4 found char rest other short ih =>
      rw [ih, inner_loop_eq, units_narrow char rest short, outer_units,
        if_neg (singleton_other char other)]

/-! What the set and the vector hold. -/

structure Holds (found : Found) (words : List (List Byte)) : Prop where
  vec_ngram : found.vec_ngram = words.eraseDups
  ngram : ∀ word, word ∈ found.ngram ↔ word ∈ words

theorem eraseDups_snoc (words : List (List Byte)) (word : List Byte) :
    (words ++ [word]).eraseDups =
      if word ∈ words then words.eraseDups else words.eraseDups ++ [word] := by
  rw [List.eraseDups_append]
  split
  · rename_i old
    simp [List.removeAll, old]
  · rename_i fresh
    simp [List.removeAll, fresh, List.eraseDups_cons]

theorem push_holds (word_len : Nat) (tmp : List Byte) (found : Found)
    (words : List (List Byte)) (holds : Holds found words) (many : 2 ≤ word_len)
    (kept : word_len ≤ 5 ∨ is_english_string tmp = true) :
    Holds (push word_len tmp found) (words ++ [tmp]) := by
  unfold push
  by_cases old : tmp ∈ words
  · have known : tmp ∈ found.ngram := (holds.ngram tmp).mpr old
    rw [if_neg (by simp [known])]
    constructor
    · rw [holds.vec_ngram, eraseDups_snoc, if_pos old]
    · intro word
      rw [holds.ngram, List.mem_append, List.mem_singleton]
      exact ⟨.inl, fun either => either.elim id (fun same => same ▸ old)⟩
  · have fresh : ¬ found.ngram.contains tmp := fun known =>
      old ((holds.ngram tmp).mp (List.contains_iff_mem.mp known))
    rw [if_pos ⟨many, kept, by simpa using fresh⟩]
    constructor
    · rw [holds.vec_ngram, eraseDups_snoc, if_neg old]
    · intro word
      rw [List.mem_cons, holds.ngram, List.mem_append, List.mem_singleton, or_comm]

theorem push_skip (word_len : Nat) (tmp : List Byte) (found : Found)
    (skipped : ¬ (2 ≤ word_len ∧ (word_len ≤ 5 ∨ is_english_string tmp = true))) :
    push word_len tmp found = found :=
  if_neg fun pushed => skipped ⟨pushed.1, pushed.2.1⟩

/-! The runs that begin with some units. -/

def onward (run rest : List (List Byte)) : List (List Byte) :=
  ((rest.inits.tail.map (run ++ ·)).filter (Gram ·)).map List.flatten

theorem onward_nil (run : List (List Byte)) : onward run [] = [] := rfl

theorem onward_cons (run : List (List Byte)) (unit : List Byte) (rest : List (List Byte)) :
    onward run (unit :: rest) =
      (if Gram (run ++ [unit]) then [(run ++ [unit]).flatten] else []) ++
        onward (run ++ [unit]) rest := by
  have tail : rest.inits = [] :: rest.inits.tail := by
    cases rest with
    | nil => rfl
    | cons first rest => rw [List.inits_cons, List.tail_cons]
  rw [onward, List.inits_cons, List.tail_cons, tail]
  simp only [List.map_cons, List.map_map, List.filter_cons, decide_eq_true_eq]
  rw [onward]
  have shift : ((run ++ ·) ∘ fun more => unit :: more) = ((run ++ [unit]) ++ ·) := by
    funext more
    simp
  rw [shift]
  split <;> rfl

theorem onward_none (run rest : List (List Byte))
    (stops : ∀ first more, (first :: more) <+: rest → ¬ Gram (run ++ first :: more)) :
    onward run rest = [] := by
  rw [onward, List.map_eq_nil_iff, List.filter_eq_nil_iff]
  intro all member
  rw [decide_eq_true_eq]
  cases rest with
  | nil => cases member
  | cons first rest =>
      rw [List.inits_cons, List.tail_cons, List.map_map, List.mem_map] at member
      obtain ⟨more, front, rfl⟩ := member
      rw [List.mem_inits] at front
      exact stops first more (List.cons_prefix_cons.mpr ⟨rfl, front⟩)

theorem gram_snoc (run : List (List Byte)) (unit : List Byte) (clear : [space] ∉ run)
    (other : unit ≠ [space]) :
    Gram (run ++ [unit]) ↔ 2 ≤ run.length + 1 ∧
      (run.length + 1 ≤ 5 ∨ is_english_string (run ++ [unit]).flatten = true) := by
  rw [Gram, english_flatten, List.length_append, List.length_singleton, List.mem_append,
    List.mem_singleton]
  have absent : ¬ ([space] ∈ run ∨ [space] = unit) :=
    fun either => either.elim clear (fun same => other same.symm)
  simp only [absent, not_false_eq_true, true_and]

theorem inner_holds (run rest : List (List Byte)) (found : Found) (words : List (List Byte))
    (holds : Holds found words) (clear : [space] ∉ run) :
    Holds (inner_units (run.length + 1) run.flatten rest found) (words ++ onward run rest) := by
  -- On the units to come; `run` is what the loop has in hand.
  induction rest generalizing run found words with
  | nil =>
      rw [inner_units, onward_nil, List.append_nil]
      exact holds
  | cons unit rest ih =>
      rw [inner_units]
      split
      -- A blank ends the loop, and no wanted run goes over one.
      · rename_i blank
        subst blank
        rw [onward_none run _ (fun first more front gram => ?_), List.append_nil]
        · exact holds
        · obtain ⟨rfl, _⟩ := List.cons_prefix_cons.mp front
          exact gram.2.1 (by simp)
      · rename_i other
        split
        · -- The run is too long and has a wide byte, as has every longer one.
          rename_i stop
          rw [onward_none run _ (fun first more front gram => ?_), List.append_nil]
          · exact holds
          · rcases gram.2.2 with short | english
            · rw [List.length_append, List.length_cons] at short
              omega
            · apply stop.2
              rw [english_flatten]
              exact fun unit member => english unit (List.mem_append_left _ member)
        · have still : [space] ∉ run ++ [unit] := by
            rw [List.mem_append, List.mem_singleton]
            exact fun either => either.elim clear (fun same => other same.symm)
          have flat : run.flatten ++ unit = (run ++ [unit]).flatten := by simp
          have length : run.length + 1 = (run ++ [unit]).length := by simp
          have wanted := gram_snoc run unit clear other
          rw [onward_cons, ← List.append_assoc, flat, length]
          apply ih _ _ _ _ still
          split
          · rename_i gram
            have pushed := wanted.mp gram
            rw [length] at pushed
            exact push_holds _ _ found words holds pushed.1 pushed.2
          · rename_i gram
            rw [push_skip _ _ _ (by rw [← length]; exact fun kept => gram (wanted.mpr kept)),
              List.append_nil]
            exact holds

theorem not_gram_nil : ¬ Gram [] := by
  rintro ⟨many, _⟩
  exact absurd many (by decide)

theorem grams_nil : grams [] = [] := by
  rw [grams, List.tails, List.flatMap_singleton, List.inits, List.filter_cons,
    if_neg (by simpa using not_gram_nil)]
  rfl

theorem grams_cons (unit : List Byte) (rest : List (List Byte)) :
    grams (unit :: rest) = onward [] (unit :: rest) ++ grams rest := by
  rw [grams, List.tails_cons, List.flatMap_cons, onward, List.inits_cons, List.tail_cons,
    List.filter_cons, if_neg (by simpa using not_gram_nil)]
  simp only [List.nil_append, List.map_id']
  rfl

theorem outer_holds (units : List (List Byte)) (found : Found) (words : List (List Byte))
    (holds : Holds found words) :
    Holds (outer_units units found) (words ++ grams units) := by
  induction units generalizing found words with
  | nil =>
      rw [outer_units, grams_nil, List.append_nil]
      exact holds
  | cons unit rest ih =>
      rw [grams_cons, ← List.append_assoc, outer_units]
      split
      · rename_i blank
        subst blank
        rw [onward_none [] _ (fun first more front gram => ?_), List.append_nil]
        · exact ih found words holds
        · obtain ⟨rfl, _⟩ := List.cons_prefix_cons.mp front
          exact gram.2.1 (by simp)
      · exact ih _ _ (inner_holds [] (unit :: rest) found words holds (by simp))

theorem mem_grams (units : List (List Byte)) (word : List Byte) :
    word ∈ grams units ↔ ∃ run, run <:+: units ∧ Gram run ∧ word = run.flatten := by
  simp only [grams, List.mem_flatMap, List.mem_tails, List.mem_map, List.mem_filter,
    List.mem_inits, decide_eq_true_eq]
  constructor
  · rintro ⟨rest, back, run, ⟨front, gram⟩, rfl⟩
    exact ⟨run, List.infix_iff_prefix_suffix.mpr ⟨rest, front, back⟩, gram, rfl⟩
  · rintro ⟨run, inside, gram, rfl⟩
    obtain ⟨rest, front, back⟩ := List.infix_iff_prefix_suffix.mp inside
    exact ⟨rest, back, run, ⟨front, gram⟩, rfl⟩

theorem nodup_eraseDups (words : List (List Byte)) : words.eraseDups.Nodup := by
  induction words using List.reverseRecOn with
  | nil => exact List.nodup_nil
  | append_singleton words word ih =>
      rw [eraseDups_snoc]
      split
      · exact ih
      · rename_i fresh
        rw [List.nodup_append]
        refine ⟨ih, List.nodup_singleton word, ?_⟩
        rintro old member last once rfl
        rw [List.mem_singleton.mp once] at member
        exact fresh (List.mem_eraseDups.mp member)

/-- The wanted runs of units, each once, where it comes first. -/
theorem ngram_eq (x : List Byte) :
    ngram x = (grams (units (string_convert x))).eraseDups ∧ (ngram x).Nodup ∧
      ∀ word, word ∈ ngram x ↔
        ∃ run, run <:+: units (string_convert x) ∧ Gram run ∧ word = run.flatten := by
  have start : Holds ⟨[], []⟩ [] := ⟨rfl, fun word => Iff.rfl⟩
  have filled := (outer_holds (units (string_convert x)) _ _ start).vec_ngram
  have result : ngram x = (grams (units (string_convert x))).eraseDups := by
    rw [ngram, outer_loop_eq, filled]
    simp
  refine ⟨result, ?_, ?_⟩
  · rw [result]
    exact nodup_eraseDups _
  · intro word
    rw [result, List.mem_eraseDups, mem_grams]

end AsrServer.Ngram
