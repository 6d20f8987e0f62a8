import AsrServer.ConfigMap

/-!
`config_map::import`. A file is given by its lines: sections, values and others, with white
space where the parser strips it. What comes after a line's closing bracket or quote is
white space too. Each line makes at most one call on the map, so the map is the one that
these calls make.
-/

namespace AsrServer.ConfigFile

open Bytes RequestHeader ConfigMap

/-- `find(head + 1, line.end(), close)`: what stands ahead of `close` and behind it. -/
def find_close (close : Byte) (rest : List Byte) : Option (List Byte × List Byte) :=
  if close ∈ rest then
    some (rest.takeWhile (· != close), (rest.dropWhile (· != close)).drop 1)
  else none

/-- A value line from the opening quote of its value on. -/
def import_quoted (map : Config) (key : List Byte) : List Byte → Config
  | [] => map
  | head :: rest =>
      if head = 34 then
        match find_close 34 rest with
        | none => map
        | some (value, _) => set_value map (cstr key) (cstr value)
      else map

/-- A value line behind its key. -/
def import_value (map : Config) (key : List Byte) : List Byte → Config
  | [] => map
  | head :: rest => if head = 61 then import_quoted map key (strip rest) else map

/-- The body of the loop in `import`, on the stripped line. -/
def import_stripped (map : Config) : List Byte → Config
  | [] => map
  | head :: rest =>
      if head = 91 then
        match find_close 93 rest with
        | none => map
        | some (key, _) => if key = [] then map else set_section map (cstr (strip key))
      else if head = 34 then
        match find_close 34 rest with
        | none => map
        | some (key, rest) => if key = [] then map else import_value map key (strip rest)
      else map

def import_line (map : Config) (line : List Byte) : Config := import_stripped map (strip line)

/-- `import` of a file with this content, or of one that cannot be opened. `getline` takes
the content apart at the newlines; behind the last there is a line too, if an empty one. -/
def import_file (map : Config) : Option (List Byte) → Int × Config
  | none => (-1, map)
  | some content => (0, (content.splitOn 10).foldl import_line map)

/-! Files. -/

structure Blank where
  bytes : List Byte
  spaces : ∀ char ∈ bytes, isSpace char = true
  single : 10 ∉ bytes

structure Text (close : Byte) where
  bytes : List Byte
  closed : close ∉ bytes
  single : 10 ∉ bytes
  clean : 0 ∉ bytes

inductive Line where
  | heading (before : Blank) (text : Text 93) (nonempty : text.bytes ≠ []) (after : Blank)
  | pair (before : Blank) (key : Text 34) (nonempty : key.bytes ≠ []) (ahead behind : Blank)
      (value : Text 34) (after : Blank)
  | other (bytes : List Byte) (single : 10 ∉ bytes) (unsection : (strip bytes).head? ≠ some 91)
      (unvalue : (strip bytes).head? ≠ some 34)

def Line.bytes : Line → List Byte
  | .heading before text _ after => before.bytes ++ (91 :: text.bytes ++ [93]) ++ after.bytes
  | .pair before key _ ahead behind value after =>
      before.bytes ++
        (34 :: (key.bytes ++ 34 :: (ahead.bytes ++ 61 :: (behind.bytes ++ 34 :: value.bytes))) ++
          [34]) ++ after.bytes
  | .other bytes _ _ _ => bytes

def file (lines : List Line) : List Byte := [10].intercalate (lines.map Line.bytes)

def written : List (List Byte) → List Line → List Entry
  | _, [] => []
  | _, .heading _ text _ _ :: later => written (normalise text.bytes) later
  | current, .pair _ key _ _ _ value _ :: later =>
      ⟨current, key.bytes, value.bytes⟩ :: written current later
  | current, .other _ _ _ _ :: later => written current later

/-- The call a line makes. -/
def Line.calls : Line → List Call
  | .heading _ text _ _ => [.set_section (strip text.bytes)]
  | .pair _ key _ _ _ value _ => [.set_value key.bytes value.bytes]
  | .other _ _ _ _ => []

/-! What is stripped. -/

theorem strip_before (blank text : List Byte) (spaces : ∀ char ∈ blank, isSpace char = true) :
    strip (blank ++ text) = strip text := by
  rw [strip, List.dropWhile_append, List.dropWhile_eq_nil_iff.mpr spaces]
  rfl

theorem strip_after (text blank : List Byte) (spaces : ∀ char ∈ blank, isSpace char = true) :
    strip (text ++ blank) = strip text := by
  have tail : ∀ front : List Byte, (front ++ blank).rdropWhile isSpace =
      front.rdropWhile isSpace := by
    intro front
    rw [List.rdropWhile, List.reverse_append, List.dropWhile_append,
      List.dropWhile_eq_nil_iff.mpr fun char member => spaces char (List.mem_reverse.mp member)]
    rfl
  rw [strip, List.dropWhile_append]
  cases rest : text.dropWhile isSpace with
  | nil =>
      have nothing := List.dropWhile_eq_nil_iff.mpr spaces
      simp [nothing, strip, rest]
  | cons first later =>
      rw [strip, rest]
      exact tail (first :: later)

theorem strip_framed (before inner after : List Byte) (first last : Byte)
    (ahead : ∀ char ∈ before, isSpace char = true)
    (behind : ∀ char ∈ after, isSpace char = true)
    (starts : isSpace first = false) (ends : isSpace last = false) :
    strip (before ++ (first :: inner ++ [last]) ++ after) = first :: inner ++ [last] := by
  rw [strip_after _ _ behind, strip_before _ _ ahead, strip, List.cons_append,
    List.dropWhile_cons_of_neg (by simp [starts]), ← List.cons_append,
    List.rdropWhile_concat_neg _ _ _ (by simp [ends])]

theorem strip_subset (text : List Byte) : strip text ⊆ text :=
  List.Subset.trans (List.rdropWhile_prefix _ _).subset (List.dropWhile_suffix _).subset

/-! Paths do not change when they are stripped. -/

theorem normalise_append (front back : List Byte) (separator : Byte)
    (separates : slash separator = 47) :
    normalise (front ++ separator :: back) = normalise front ++ normalise back := by
  have found : (slash separator == 47) = true := by rw [separates]; rfl
  have split := List.splitOnP_append_cons (p := (· == 47)) (front.map slash) (back.map slash) found
  rw [normalise, List.map_append, List.map_cons, List.splitOn_eq_splitOnP, split, List.map_append,
    List.filter_append]
  rfl

theorem slash_plain (char : Byte) (whole : slash char ≠ 47) : slash char = char ∧ char ≠ 47 := by
  unfold slash at whole ⊢
  split at whole
  · exact absurd rfl whole
  · rename_i other
    exact ⟨if_neg other, whole⟩

theorem normalise_single (part : List Byte) (whole : ∀ char ∈ part, slash char ≠ 47) :
    normalise part = if strip part = [] then [] else [strip part] := by
  have plain : part.map slash = part := by
    refine (List.map_congr_left ?_).trans (List.map_id part)
    intro char member
    exact (slash_plain char (whole char member)).1
  rw [normalise, plain, List.splitOn_eq_splitOnP, List.splitOnP_eq_singleton]
  · by_cases empty : strip part = [] <;> simp [empty]
  · intro char member
    simpa using (slash_plain char (whole char member)).2

theorem path_cases (path : List Byte) : (∀ char ∈ path, slash char ≠ 47) ∨
    ∃ part separator rest, path = part ++ separator :: rest ∧
      (∀ char ∈ part, slash char ≠ 47) ∧ slash separator = 47 := by
  induction path with
  | nil => exact Or.inl (by simp)
  | cons first later ih =>
      by_cases separates : slash first = 47
      · exact Or.inr ⟨[], first, later, rfl, by simp, separates⟩
      · rcases ih with whole | ⟨part, separator, rest, shape, whole, ends⟩
        · exact Or.inl (List.forall_mem_cons.mpr ⟨separates, whole⟩)
        · exact Or.inr ⟨first :: part, separator, rest, by rw [shape]; rfl,
            List.forall_mem_cons.mpr ⟨separates, whole⟩, ends⟩

theorem blank_whole (blank : List Byte) (spaces : ∀ char ∈ blank, isSpace char = true) :
    ∀ char ∈ blank, slash char ≠ 47 := by
  intro char member
  have all : ∀ char : Byte, isSpace char = true → slash char ≠ 47 := forall_byte (by decide +kernel)
  exact all char (spaces char member)

theorem whole_append (front back : List Byte) (left : ∀ char ∈ front, slash char ≠ 47)
    (right : ∀ char ∈ back, slash char ≠ 47) : ∀ char ∈ front ++ back, slash char ≠ 47 :=
  List.forall_mem_append.mpr ⟨left, right⟩

theorem normalise_before (blank path : List Byte) (spaces : ∀ char ∈ blank, isSpace char = true) :
    normalise (blank ++ path) = normalise path := by
  have plain := blank_whole blank spaces
  rcases path_cases path with whole | ⟨part, separator, rest, rfl, whole, ends⟩
  · rw [normalise_single _ (whole_append _ _ plain whole), normalise_single _ whole,
      strip_before _ _ spaces]
  · rw [← List.append_assoc, normalise_append _ _ _ ends, normalise_append _ _ _ ends,
      normalise_single _ (whole_append _ _ plain whole), normalise_single _ whole,
      strip_before _ _ spaces]

theorem normalise_after (path blank : List Byte) (spaces : ∀ char ∈ blank, isSpace char = true) :
    normalise (path ++ blank) = normalise path := by
  induction length : path.length using Nat.strong_induction_on generalizing path with
  | _ size ih =>
      rcases path_cases path with whole | ⟨part, separator, rest, rfl, whole, ends⟩
      · have plain := blank_whole blank spaces
        rw [normalise_single _ (whole_append _ _ whole plain), normalise_single _ whole,
          strip_after _ _ spaces]
      · have less : rest.length < size := by
          rw [← length, List.length_append, List.length_cons]
          omega
        rw [List.append_assoc, List.cons_append, normalise_append _ _ _ ends,
          normalise_append _ _ _ ends, ih rest.length less rest rfl]

theorem normalise_strip (text : List Byte) : normalise (strip text) = normalise text := by
  have back := List.rdropWhile_append_rtakeWhile (p := isSpace) (l := text.dropWhile isSpace)
  have front := List.takeWhile_append_dropWhile (p := isSpace) (l := text)
  have ahead : ∀ char ∈ text.takeWhile isSpace, isSpace char = true := fun _ member =>
    List.mem_takeWhile_imp member
  have behind : ∀ char ∈ (text.dropWhile isSpace).rtakeWhile isSpace, isSpace char = true :=
    fun _ member => List.mem_rtakeWhile_imp member
  have shape : text = text.takeWhile isSpace ++
      (strip text ++ (text.dropWhile isSpace).rtakeWhile isSpace) := by
    rw [strip, back, front]
  conv_rhs => rw [shape]
  rw [normalise_before _ _ ahead, normalise_after _ _ behind]

/-! One line. -/

theorem find_close_first (close : Byte) (text rest : List Byte) (closed : close ∉ text) :
    find_close close (text ++ close :: rest) = some (text, rest) := by
  have ahead : ∀ char ∈ text, (char != close) = true := by
    intro char member
    simp only [bne_iff_ne, ne_eq]
    rintro rfl
    exact closed member
  rw [find_close, if_pos (by simp), List.takeWhile_append_of_pos ahead,
    List.dropWhile_append_of_pos ahead]
  simp

theorem import_heading (map : Config) (before after : Blank) (text : Text 93)
    (nonempty : text.bytes ≠ []) :
    import_line map (Line.heading before text nonempty after).bytes =
      set_section map (strip text.bytes) := by
  have clean : 0 ∉ strip text.bytes := fun member => text.clean (strip_subset _ member)
  rw [import_line, Line.bytes, strip_framed _ _ _ _ _ before.spaces after.spaces (by decide)
    (by decide), List.cons_append, import_stripped, if_pos rfl,
    find_close_first _ _ _ text.closed]
  dsimp only
  rw [if_neg nonempty, cstr_eq _ clean]

theorem import_pair (map : Config) (before ahead behind after : Blank) (key value : Text 34)
    (nonempty : key.bytes ≠ []) :
    import_line map (Line.pair before key nonempty ahead behind value after).bytes =
      set_value map key.bytes value.bytes := by
  have quoted := strip_framed behind.bytes value.bytes [] 34 34 behind.spaces (by simp) (by decide)
    (by decide)
  have assigned := strip_framed ahead.bytes (behind.bytes ++ 34 :: value.bytes) [] 61 34
    ahead.spaces (by simp) (by decide) (by decide)
  simp only [List.append_nil, List.cons_append, List.append_assoc] at quoted assigned
  rw [import_line, Line.bytes, strip_framed _ _ _ _ _ before.spaces after.spaces (by decide)
    (by decide), List.cons_append, import_stripped, if_neg (by decide), if_pos rfl]
  simp only [List.append_assoc, List.cons_append]
  rw [find_close_first _ _ _ key.closed]
  dsimp only
  rw [if_neg nonempty, assigned, import_value, if_pos rfl, quoted, import_quoted, if_pos rfl,
    find_close_first _ _ _ value.closed]
  dsimp only
  rw [cstr_eq _ key.clean, cstr_eq _ value.clean]

theorem import_line_calls (map : Config) (line : Line) :
    import_line map line.bytes = run map line.calls := by
  cases line with
  | heading before text nonempty after => exact import_heading map before after text nonempty
  | pair before key nonempty ahead behind value after =>
      exact import_pair map before ahead behind after key value nonempty
  | other bytes single unsection unvalue =>
      rw [import_line, Line.bytes]
      cases shape : strip bytes with
      | nil => rfl
      | cons head rest =>
          rw [shape] at unsection unvalue
          rw [import_stripped, if_neg (by simpa using unsection), if_neg (by simpa using unvalue)]
          rfl

/-! The file. -/

theorem Line.bytes_single (line : Line) : 10 ∉ line.bytes := by
  cases line with
  | heading before text nonempty after =>
      simp [Line.bytes, before.single, text.single, after.single]
  | pair before key nonempty ahead behind value after =>
      simp [Line.bytes, before.single, key.single, ahead.single, behind.single, value.single,
        after.single]
  | other bytes single unsection unvalue => exact single

theorem file_lines (lines : List Line) (map : Config) :
    ((file lines).splitOn 10).foldl import_line map =
      (lines.map Line.bytes).foldl import_line map := by
  by_cases empty : lines = []
  · rw [empty]
    rfl
  · have single : ∀ line ∈ lines.map Line.bytes, 10 ∉ line := by
      intro bytes member
      obtain ⟨line, _, rfl⟩ := List.mem_map.mp member
      exact line.bytes_single
    rw [file, List.splitOn_intercalate 10 single (by simpa using empty)]

theorem import_lines (lines : List Line) (map : Config) :
    (lines.map Line.bytes).foldl import_line map = run map (lines.flatMap Line.calls) := by
  induction lines generalizing map with
  | nil => rfl
  | cons line rest ih =>
      rw [List.map_cons, List.foldl_cons, import_line_calls, ih, List.flatMap_cons, run, run, run,
        List.foldl_append]

theorem entries_written (lines : List Line) (current : List (List Byte)) :
    entries current (lines.flatMap Line.calls) = written current lines := by
  induction lines generalizing current with
  | nil => rfl
  | cons line rest ih =>
      cases line with
      | heading before text nonempty after =>
          refine (ih _).trans ?_
          rw [normalise_strip]
          rfl
      | pair before key nonempty ahead behind value after =>
          exact congrArg (List.cons _) (ih current)
      | other bytes single unsection unvalue => exact ih current

/-- What has been written in a file is read back: the last entry under a path and a key. -/
theorem import_round_trip (lines : List Line) (path key : List Byte) :
    (import_file config_map (some (file lines))).1 = 0 ∧
      get_value (set_section (import_file config_map (some (file lines))).2 path) key =
        lastValue (normalise path) key (written [] lines) := by
  refine ⟨rfl, ?_⟩
  have imported : (import_file config_map (some (file lines))).2 =
      run config_map (lines.flatMap Line.calls) :=
    (file_lines lines config_map).trans (import_lines lines config_map)
  rw [imported, run_value, entries_written]

example : get_value (set_section (import_file config_map
    (some (text "[a/ b]\n \"k\" =\t\" v \" \n# k\n[a\\b]"))).2 (text "/a/b")) (text "k") =
    some (text " v ") := by
  decide +kernel

end AsrServer.ConfigFile
