import AsrServer.Numbers

/-!
The table of locations. `init` converts each line of a file into one buffer that is neither
cleared nor ended behind the converted bytes, and reads the line from it as a C string. What
a longer line before it has left in the buffer becomes part of it.
-/

namespace AsrServer.Locations

open Bytes RequestHeader Numbers

structure IPLocation where
  country : List Byte
  province : List Byte
  city : List Byte
  district : List Byte
  capital : List Byte
  deriving DecidableEq

def IPLocation.reset : IPLocation := ⟨[], [], [], [], []⟩

/-! Conversion. -/

inductive Errno where
  | EILSEQ
  | E2BIG
  | other
  deriving DecidableEq

/-- What a call of `iconv` does: it fails or not, and has written some bytes. -/
structure Conversion where
  errno : Option Errno
  written : List Byte
  deriving DecidableEq

/-- `char buf[1024]`. -/
structure Buffer where
  bytes : List Byte
  size : bytes.length = 1024

/-- `iconv` writes from the start of the buffer and leaves the rest. -/
def Buffer.write (buf : Buffer) (written : List Byte) : Buffer where
  bytes := (written ++ buf.bytes.drop written.length).take 1024
  size := by
    have size := buf.size
    rw [List.length_take, List.length_append, List.length_drop]
    omega

/-- `iconv` from GB18030 to UTF-8, with the room in the output buffer. -/
abbrev Iconv := List Byte → Nat → Conversion

/-- `gbk2utf8` with pointers that are not null, but for the input's. -/
def gbk2utf8 (iconv : Iconv) (input : Option (List Byte)) (out : Buffer) : Int × Buffer :=
  match input with
  | none => (0, out)
  | some bytes =>
      let converted := iconv bytes 1024
      let out := out.write converted.written
      match converted.errno with
      | some .EILSEQ => (-2, out)
      | some .E2BIG => (-1, out)
      | some .other => (-3, out)
      | none => (converted.written.length, out)

/-! The table. -/

abbrev Positions := List Byte → Option IPLocation

/-- `insert` keeps an entry that is there. -/
def Positions.insert (positions : Positions) (ip : List Byte) (location : IPLocation) :
    Positions :=
  fun key => (positions key).or (if key = ip then some location else none)

/-- `is >> field`: the word, and what is left of the stream. -/
def extract (stream : List Byte) : Option (List Byte × List Byte) :=
  let rest := skipSpace stream
  if rest = [] then none
  else some (rest.takeWhile (!isSpace ·), rest.dropWhile (!isSpace ·))

def suffix : List Byte := [0xe5, 0xb8, 0x82]

/-- `cit.replace(cit.find(buf), strlen(buf), "")`. -/
def strip_city (cit : List Byte) : List Byte :=
  match find cit suffix with
  | none => cit
  | some pos => cit.take pos ++ cit.drop (pos + suffix.length)

/-- `is >> ip >> cit >> cap >> pro >> nat` and the entry that is made of them. The strings
are shared by all lines, but none is read before all of them have been set. -/
def read_fields (line : List Byte) : Option (List Byte × IPLocation) := do
  let (ip, stream) ← extract line
  let (cit, stream) ← extract stream
  let (cap, stream) ← extract stream
  let (pro, stream) ← extract stream
  let (nat, _) ← extract stream
  some (ip, ⟨nat, pro, strip_city cit, [], cap⟩)

/-- `line = buf`. Without a NUL it reads past the buffer. -/
def c_string (buf : Buffer) : Option (List Byte) :=
  if 0 ∈ buf.bytes then some (cstr buf.bytes) else none

/-- The body of the loop in `init`; none is undefined. -/
def init_line (iconv : Iconv) (state : Buffer × Positions) (line : List Byte) :
    Option (Buffer × Positions) :=
  let (ret, buf) := gbk2utf8 iconv (some line) state.1
  if ret ≤ 0 then some (buf, state.2)
  else
    (c_string buf).map fun line =>
      match read_fields line with
      | some (ip, location) => (buf, state.2.insert ip location)
      | none => (buf, state.2)

/-- What `getline` gives one by one: there is no empty line behind the last newline. -/
def getlines (content : List Byte) : List (List Byte) :=
  let lines := content.splitOn 10
  if lines.getLast? = some [] then lines.dropLast else lines

/-- `init` on a file with this content, or on one that cannot be opened, with what is in the
buffer before; none is undefined. -/
def init (iconv : Iconv) (file : Option (List Byte)) (buf : Buffer) (positions : Positions) :
    Option (Int × Positions) :=
  match file with
  | none => some (-1, positions)
  | some content =>
      ((getlines content).foldlM (init_line iconv) (buf, fun _ => none)).map fun state =>
        (0, state.2)

def get_location (positions : Positions) (ip : List Byte) : IPLocation :=
  match positions ip with
  | some location => location
  | none => .reset

/-! Lines. -/

structure Word where
  bytes : List Byte
  nonempty : bytes ≠ []
  solid : ∀ char ∈ bytes, isSpace char = false
  clean : 0 ∉ bytes

structure Blank where
  bytes : List Byte
  spaces : ∀ char ∈ bytes, isSpace char = true

structure Gap extends Blank where
  nonempty : bytes ≠ []

structure Fields where
  before : Blank
  ip : Word
  first : Gap
  cit : Word
  second : Gap
  cap : Word
  third : Gap
  pro : Word
  fourth : Gap
  nat : Word
  after : Blank

def Fields.text (fields : Fields) : List Byte :=
  fields.before.bytes ++ (fields.ip.bytes ++ (fields.first.bytes ++ (fields.cit.bytes ++
    (fields.second.bytes ++ (fields.cap.bytes ++ (fields.third.bytes ++ (fields.pro.bytes ++
      (fields.fourth.bytes ++ (fields.nat.bytes ++ fields.after.bytes)))))))))

/-- A line that has room for its NUL. -/
structure Line extends Fields where
  fits : toFields.text.length ≤ 1023

def Converts (iconv : Iconv) (raws : List (List Byte)) (lines : List Line) : Prop :=
  raws.map (iconv · 1024) = lines.map fun line => ⟨none, line.text⟩

instance (iconv : Iconv) (raws : List (List Byte)) (lines : List Line) :
    Decidable (Converts iconv raws lines) :=
  inferInstanceAs
    (Decidable (raws.map (iconv · 1024) = lines.map fun line => Conversion.mk none line.text))

def without_suffix (cit : List Byte) : List Byte :=
  if suffix <:+ cit then cit.take (cit.length - suffix.length) else cit

def Fields.location (fields : Fields) : IPLocation :=
  ⟨fields.nat.bytes, fields.pro.bytes, without_suffix fields.cit.bytes, [], fields.cap.bytes⟩

def First (lines front : List Line) (line : Line) : Prop :=
  (∃ back, lines = front ++ line :: back) ∧ ∀ earlier ∈ front, earlier.ip.bytes ≠ line.ip.bytes

/-- `init` reads the file, and each IP has the location that its first line says. -/
def Independent (lines : List Line) (result : Option (Int × Positions)) : Prop :=
  ∃ positions, result = some (0, positions) ∧ ∀ front line, First lines front line →
    get_location positions line.ip.bytes = line.location

/-- What is at a place of the buffer behind these lines: the byte of the last line that
reaches it, or what was there before them. -/
def left_over (buf : Buffer) (earlier : List Line) (place : Nat) : Byte :=
  match earlier.reverse.find? (place < ·.text.length) with
  | some line => line.text.getD place 0
  | none => buf.bytes.getD place 0

/-- There is a NUL in the buffer that no line reaches. -/
def Ended (buf : Buffer) (lines : List Line) : Prop :=
  ∃ place, buf.bytes[place]? = some 0 ∧ ∀ line ∈ lines, line.text.length ≤ place

def Closed (buf : Buffer) (front : List Line) (line : Line) : Prop :=
  line.after.bytes ≠ [] ∨ left_over buf front line.text.length = 0 ∨
    isSpace (left_over buf front line.text.length) = true

/-- Behind the first `suffix` in the city there are no bytes but its copies. -/
def Trailing (cit : List Byte) : Prop :=
  ∀ left right, cit.dropInfix? suffix = some (left, right) →
    ∃ copies, right = (List.replicate copies suffix).flatten

/-! One line. -/

theorem extract_word (gap : Blank) (word rest : List Byte) (solid : word ≠ [])
    (all : ∀ char ∈ word, isSpace char = false) (stops : Stops (!isSpace ·) rest) :
    extract (gap.bytes ++ (word ++ rest)) = some (word, rest) := by
  have begins : Stops isSpace (word ++ rest) := by
    obtain ⟨head, tail, rfl⟩ := List.exists_cons_of_ne_nil solid
    exact stops_cons isSpace head _ (all head List.mem_cons_self)
  have run := takeWhile_run (!isSpace ·) word rest
    (fun char member => by rw [all char member]; rfl) stops
  unfold extract
  rw [skipSpace_gap gap.bytes _ gap.spaces begins]
  simp only [run.1, run.2]
  rw [if_neg (by simp [solid])]

theorem Gap.stops (gap : Gap) (rest : List Byte) : Stops (!isSpace ·) (gap.bytes ++ rest) := by
  obtain ⟨first, later, same⟩ := List.exists_cons_of_ne_nil gap.nonempty
  rw [same, List.cons_append]
  apply stops_cons
  rw [gap.spaces first (by rw [same]; exact List.mem_cons_self)]
  rfl

def Fields.run (fields : Fields) (tail : List Byte) : List Byte :=
  (fields.after.bytes ++ tail).takeWhile (!isSpace ·)

def Fields.entry (fields : Fields) (tail : List Byte) : IPLocation :=
  ⟨fields.nat.bytes ++ fields.run tail, fields.pro.bytes, strip_city fields.cit.bytes, [],
    fields.cap.bytes⟩

theorem extract_last (fields : Fields) (tail : List Byte) :
    ∃ stream, extract (fields.fourth.bytes ++ (fields.nat.bytes ++ (fields.after.bytes ++ tail))) =
      some (fields.nat.bytes ++ fields.run tail, stream) := by
  refine ⟨(fields.after.bytes ++ tail).dropWhile (!isSpace ·), ?_⟩
  have word := extract_word fields.fourth.toBlank (fields.nat.bytes ++ fields.run tail)
    ((fields.after.bytes ++ tail).dropWhile (!isSpace ·)) (by simp [fields.nat.nonempty])
  rw [List.append_assoc, Fields.run, List.takeWhile_append_dropWhile] at word
  apply word _ (stops_dropWhile _ _)
  intro char member
  rcases List.mem_append.mp member with own | more
  · exact fields.nat.solid char own
  · simpa using List.mem_takeWhile_imp more

theorem read_fields_text (fields : Fields) (tail : List Byte) :
    read_fields (fields.text ++ tail) = some (fields.ip.bytes, fields.entry tail) := by
  have ip (rest : List Byte) := extract_word fields.before fields.ip.bytes
    (fields.first.bytes ++ rest) fields.ip.nonempty fields.ip.solid (fields.first.stops rest)
  have cit (rest : List Byte) := extract_word fields.first.toBlank fields.cit.bytes
    (fields.second.bytes ++ rest) fields.cit.nonempty fields.cit.solid (fields.second.stops rest)
  have cap (rest : List Byte) := extract_word fields.second.toBlank fields.cap.bytes
    (fields.third.bytes ++ rest) fields.cap.nonempty fields.cap.solid (fields.third.stops rest)
  have pro (rest : List Byte) := extract_word fields.third.toBlank fields.pro.bytes
    (fields.fourth.bytes ++ rest) fields.pro.nonempty fields.pro.solid (fields.fourth.stops rest)
  obtain ⟨stream, nat⟩ := extract_last fields tail
  unfold read_fields
  simp only [Fields.text, List.append_assoc, ip, cit, cap, pro, nat, Option.bind_eq_bind,
    Option.bind_some]
  rfl

theorem Fields.run_eq_nil_iff (fields : Fields) (tail : List Byte) :
    fields.run tail = [] ↔
      fields.after.bytes ≠ [] ∨ ∀ char ∈ tail.head?, isSpace char = true := by
  unfold Fields.run
  cases blank : fields.after.bytes with
  | cons first rest =>
      have space := fields.after.spaces first (by rw [blank]; exact List.mem_cons_self)
      simp [space]
  | nil => cases tail <;> simp

/-! The city. -/

theorem strip_city_eq (cit : List Byte) :
    strip_city cit =
      match cit.dropInfix? suffix with
      | some (left, right) => left ++ right
      | none => cit := by
  unfold strip_city find
  cases found : cit.dropInfix? suffix with
  | none => rfl
  | some parts =>
      have split := Occurrence.split_text _ _ _ _ found
      simp only
      rw [split, ← List.length_append, List.drop_left, List.append_assoc, List.take_left]

theorem copies_iff (bytes : List Byte) :
    bytes ++ suffix = suffix ++ bytes ↔
      ∃ copies, bytes = (List.replicate copies suffix).flatten := by
  constructor
  · intro same
    induction size : bytes.length using Nat.strong_induction_on generalizing bytes with
    | h length ih =>
        rcases List.append_eq_append_iff.mp same with ⟨more, front, back⟩ | ⟨more, front, back⟩
        · cases bytes with
          | nil => exact ⟨0, rfl⟩
          | cons first rest =>
              cases more with
              | nil => exact ⟨1, back.symm⟩
              | cons head later =>
                  -- The first byte of `suffix` would be in it twice.
                  injection front with _ front
                  injection back with head_eq _
                  have twice : head ∈ [0xb8, 0x82] := by rw [front]; simp
                  rw [← head_eq] at twice
                  exact absurd twice (by decide)
        · have shorter : more.length < length := by
            rw [← size, front, List.length_append]
            exact Nat.lt_add_of_pos_left (by decide)
          obtain ⟨copies, repeated⟩ := ih more.length shorter more (back.symm.trans front) rfl
          exact ⟨copies + 1, by rw [front, repeated, List.replicate_succ, List.flatten_cons]⟩
  · rintro ⟨copies, rfl⟩
    induction copies with
    | zero => rfl
    | succ copies ih =>
        rw [List.replicate_succ, List.flatten_cons, List.append_assoc, ih]

theorem without_suffix_append (front : List Byte) : without_suffix (front ++ suffix) = front := by
  rw [without_suffix, if_pos (List.suffix_append front suffix), List.length_append,
    Nat.add_sub_cancel, List.take_left]

theorem strip_city_iff (cit : List Byte) :
    strip_city cit = without_suffix cit ↔ Trailing cit := by
  rw [strip_city_eq]
  unfold Trailing
  cases found : cit.dropInfix? suffix with
  | none =>
      have absent := (Occurrence.split_none_iff cit suffix).mp found
      have inside : ¬ suffix <:+ cit := by
        rintro ⟨left, same⟩
        exact absent left [] (by rw [List.append_nil, same])
      simp [without_suffix, inside]
  | some parts =>
      obtain ⟨left, right⟩ := parts
      have split := Occurrence.split_text _ _ _ _ found
      have turned : left ++ right = without_suffix cit ↔ right ++ suffix = suffix ++ right := by
        constructor
        · intro same
          by_cases ends : suffix <:+ cit
          · obtain ⟨front, whole⟩ := ends
            rw [← whole, without_suffix_append] at same
            rw [split, ← same, List.append_assoc, List.append_assoc] at whole
            exact List.append_cancel_left whole
          · rw [without_suffix, if_neg ends, split, List.append_assoc] at same
            have shorter := congrArg List.length (List.append_cancel_left same)
            rw [List.length_append] at shorter
            exact absurd shorter (by simp [suffix])
        · intro same
          rw [split, List.append_assoc, ← same, ← List.append_assoc, without_suffix_append]
      simp only [turned, copies_iff]
      constructor
      · rintro copies left right same
        cases same
        exact copies
      · exact fun trailing => trailing left right rfl

theorem entry_iff (fields : Fields) (tail : List Byte) :
    fields.entry tail = fields.location ↔
      (fields.after.bytes ≠ [] ∨ ∀ char ∈ tail.head?, isSpace char = true) ∧
        Trailing fields.cit.bytes := by
  rw [← fields.run_eq_nil_iff, ← strip_city_iff]
  simp [Fields.entry, Fields.location]

/-! The buffer. -/

theorem Fields.text_clean (fields : Fields) : 0 ∉ fields.text := by
  have blank (gap : Blank) : 0 ∉ gap.bytes := fun zero =>
    absurd (gap.spaces 0 zero) (by decide)
  simp only [Fields.text, List.mem_append, not_or]
  exact ⟨blank _, fields.ip.clean, blank _, fields.cit.clean, blank _, fields.cap.clean, blank _,
    fields.pro.clean, blank _, fields.nat.clean, blank _⟩

theorem Fields.text_some (fields : Fields) : fields.text ≠ [] := by
  simp [Fields.text, fields.ip.nonempty]

theorem Line.write_bytes (line : Line) (buf : Buffer) :
    (buf.write line.text).bytes = line.text ++ buf.bytes.drop line.text.length := by
  have size := buf.size
  have fits := line.fits
  apply List.take_of_length_le
  rw [List.length_append, List.length_drop]
  omega

def Line.read (line : Line) (buf : Buffer) : IPLocation :=
  line.entry (cstr (buf.bytes.drop line.text.length))

theorem init_line_text (iconv : Iconv) (buf : Buffer) (positions : Positions)
    (bytes : List Byte) (line : Line) (converts : iconv bytes 1024 = ⟨none, line.text⟩) :
    init_line iconv (buf, positions) bytes =
      if 0 ∈ (buf.write line.text).bytes then
        some (buf.write line.text, positions.insert line.ip.bytes (line.read buf))
      else none := by
  have positive := List.length_pos_iff.mpr line.text_some
  have read : cstr (buf.write line.text).bytes =
      line.text ++ cstr (buf.bytes.drop line.text.length) := by
    rw [line.write_bytes, cstr_append _ _ line.text_clean]
  unfold init_line gbk2utf8 c_string
  simp only [converts]
  rw [if_neg (by omega)]
  split
  · rw [Option.map_some, read, read_fields_text]
    rfl
  · rfl

theorem Line.write_get (line : Line) (buf : Buffer) (place : Nat) :
    (buf.write line.text).bytes[place]? =
      if place < line.text.length then line.text[place]? else buf.bytes[place]? := by
  rw [line.write_bytes, List.getElem?_append, List.getElem?_drop]
  split
  · rfl
  · congr 1
    omega

def written (buf : Buffer) (lines : List Line) : Buffer :=
  lines.foldl (fun buf line => buf.write line.text) buf

theorem written_left_over (buf : Buffer) (earlier : List Line) (place : Nat) :
    (written buf earlier).bytes.getD place 0 = left_over buf earlier place := by
  induction earlier using List.reverseRecOn with
  | nil => rfl
  | append_singleton earlier line ih =>
      have last : written buf (earlier ++ [line]) = (written buf earlier).write line.text := by
        simp [written]
      rw [last, List.getD_eq_getElem?_getD, line.write_get]
      unfold left_over
      rw [List.reverse_append, List.reverse_singleton, List.singleton_append, List.find?_cons]
      by_cases reaches : place < line.text.length
      · rw [if_pos reaches, decide_eq_true reaches]
        exact (List.getD_eq_getElem?_getD ..).symm
      · rw [if_neg reaches, decide_eq_false reaches, ← List.getD_eq_getElem?_getD, ih]
        rfl

/-- The byte behind the line's text tells whether its last field goes on. -/
theorem read_iff (line : Line) (buf : Buffer) (front : List Line) :
    line.read (written buf front) = line.location ↔
      Closed buf front line ∧ Trailing line.cit.bytes := by
  have fits := line.fits
  have size := (written buf front).size
  have inside : line.text.length < (written buf front).bytes.length := by omega
  have byte : (written buf front).bytes.getD line.text.length 0 =
      (written buf front).bytes[line.text.length] := by
    rw [List.getD_eq_getElem?_getD, List.getElem?_eq_getElem inside, Option.getD_some]
  unfold Line.read Closed
  rw [entry_iff, ← written_left_over, byte, List.drop_eq_getElem_cons inside]
  apply and_congr_left'
  apply or_congr_right
  unfold cstr
  rw [List.takeWhile_cons]
  split
  · rename_i other
    have solid : (written buf front).bytes[line.text.length] ≠ 0 := by simpa using other
    simp [solid]
  · rename_i other
    have zero : (written buf front).bytes[line.text.length] = 0 := by simpa using other
    simp [zero]

/-! The run. -/

theorem ended_cons_iff (buf : Buffer) (line : Line) (rest : List Line) :
    Ended buf (line :: rest) ↔ Ended (buf.write line.text) rest := by
  have zero (place : Nat) : (buf.write line.text).bytes[place]? = some 0 ↔
      line.text.length ≤ place ∧ buf.bytes[place]? = some 0 := by
    rw [line.write_get]
    split
    · rename_i within
      constructor
      · intro found
        exact absurd (List.mem_of_getElem? found) line.text_clean
      · rintro ⟨behind, _⟩
        omega
    · rename_i behind
      exact ⟨fun found => ⟨by omega, found⟩, And.right⟩
  unfold Ended
  simp only [zero, List.forall_mem_cons]
  exact exists_congr fun place => by tauto

theorem ended_nil_iff (buf : Buffer) : Ended buf [] ↔ 0 ∈ buf.bytes := by
  rw [List.mem_iff_getElem?]
  exact exists_congr fun place => by simp

theorem Ended.mem {buf : Buffer} {lines : List Line} (ended : Ended buf lines) :
    0 ∈ buf.bytes := by
  obtain ⟨place, zero, _⟩ := ended
  exact List.mem_of_getElem? zero

def table (buf : Buffer) : List Line → Positions
  | [] => fun _ => none
  | line :: rest => fun ip =>
      if ip = line.ip.bytes then some (line.read buf) else table (buf.write line.text) rest ip

theorem Converts.cons {iconv : Iconv} {raws : List (List Byte)} {line : Line} {rest : List Line}
    (converts : Converts iconv raws (line :: rest)) :
    ∃ bytes more, raws = bytes :: more ∧ iconv bytes 1024 = ⟨none, line.text⟩ ∧
      Converts iconv more rest := by
  cases raws with
  | nil => cases converts
  | cons bytes more =>
      injection converts with own others
      exact ⟨bytes, more, rfl, own, others⟩

theorem insert_table (positions : Positions) (buf : Buffer) (line : Line) (rest : List Line) :
    (fun ip => (positions.insert line.ip.bytes (line.read buf) ip).or
      (table (buf.write line.text) rest ip)) =
    fun ip => (positions ip).or (table buf (line :: rest) ip) := by
  funext ip
  simp only [Positions.insert, table]
  rw [Option.or_assoc]
  split <;> rfl

theorem loop_ended (iconv : Iconv) (raws : List (List Byte)) (lines : List Line)
    (converts : Converts iconv raws lines) (buf : Buffer) (positions : Positions)
    (ended : Ended buf lines) :
    raws.foldlM (init_line iconv) (buf, positions) =
      some (written buf lines, fun ip => (positions ip).or (table buf lines ip)) := by
  induction lines generalizing raws buf positions with
  | nil =>
      obtain rfl := List.map_eq_nil_iff.mp converts
      simp [written, table]
  | cons line rest ih =>
      obtain ⟨bytes, more, rfl, own, others⟩ := converts.cons
      have later := (ended_cons_iff buf line rest).mp ended
      rw [List.foldlM_cons, init_line_text iconv buf positions bytes line own, if_pos later.mem]
      change more.foldlM (init_line iconv) _ = _
      rw [ih more others _ _ later, insert_table]
      rfl

theorem loop_unended (iconv : Iconv) (raws : List (List Byte)) (lines : List Line)
    (converts : Converts iconv raws lines) (nonempty : lines ≠ []) (buf : Buffer)
    (positions : Positions) (unended : ¬ Ended buf lines) :
    raws.foldlM (init_line iconv) (buf, positions) = none := by
  induction lines generalizing raws buf positions with
  | nil => exact absurd rfl nonempty
  | cons line rest ih =>
      obtain ⟨bytes, more, rfl, own, others⟩ := converts.cons
      have later := fun ended => unended ((ended_cons_iff buf line rest).mpr ended)
      rw [List.foldlM_cons, init_line_text iconv buf positions bytes line own]
      split
      · rename_i zero
        change more.foldlM (init_line iconv) _ = _
        cases rest with
        | nil => exact absurd ((ended_nil_iff _).mpr zero) later
        | cons next rest => exact ih more others (List.cons_ne_nil _ _) _ _ later
      · rfl

theorem table_first (buf : Buffer) (lines front : List Line) (line : Line)
    (first : First lines front line) :
    table buf lines line.ip.bytes = some (line.read (written buf front)) := by
  obtain ⟨⟨back, rfl⟩, others⟩ := first
  induction front generalizing buf with
  | nil => exact if_pos rfl
  | cons earlier front ih =>
      obtain ⟨other, others⟩ := List.forall_mem_cons.mp others
      exact (if_neg (Ne.symm other)).trans (ih (buf.write earlier.text) others)

theorem init_eq (iconv : Iconv) (content : List Byte) (lines : List Line)
    (converts : Converts iconv (getlines content) lines) (buf : Buffer) (positions : Positions)
    (ended : lines ≠ [] → Ended buf lines) :
    init iconv (some content) buf positions = some (0, table buf lines) := by
  unfold init
  by_cases empty : lines = []
  · subst empty
    have nothing : getlines content = [] := List.map_eq_nil_iff.mp converts
    simp only [nothing]
    rfl
  · simp only [loop_ended iconv _ lines converts buf (fun _ => none) (ended empty)]
    simp

/-- The locations are those of the lines exactly when no last field runs on into what a longer
line, or nothing yet, has left in the buffer, and no city has the suffix further ahead. -/
theorem independent_iff (iconv : Iconv) (content : List Byte) (lines : List Line)
    (converts : Converts iconv (getlines content) lines) (buf : Buffer) (positions : Positions) :
    Independent lines (init iconv (some content) buf positions) ↔
      (lines ≠ [] → Ended buf lines) ∧
        ∀ front line, First lines front line →
          Closed buf front line ∧ Trailing line.cit.bytes := by
  have located (front : List Line) (line : Line) (first : First lines front line) :
      get_location (table buf lines) line.ip.bytes = line.location ↔
        Closed buf front line ∧ Trailing line.cit.bytes := by
    rw [← read_iff, get_location, table_first buf lines front line first]
  constructor
  · rintro ⟨made, ran, answers⟩
    have ended : lines ≠ [] → Ended buf lines := by
      intro nonempty
      by_contra unended
      have failed := loop_unended iconv _ lines converts nonempty buf (fun _ => none) unended
      simp only [init, failed] at ran
      cases ran
    rw [init_eq iconv content lines converts buf positions ended] at ran
    cases ran
    exact ⟨ended, fun front line first => (located front line first).mp (answers front line first)⟩
  · rintro ⟨ended, closed⟩
    refine ⟨table buf lines, init_eq iconv content lines converts buf positions ended, ?_⟩
    exact fun front line first => (located front line first).mpr (closed front line first)

/-- `iconv` on ASCII, which is the same in both. -/
def ascii : Iconv := fun bytes room => ⟨none, bytes.take room⟩

def zeros : Buffer := ⟨List.replicate 1024 0, List.length_replicate⟩

def blank (bytes : List Byte) (spaces : bytes.all isSpace = true) : Blank :=
  ⟨bytes, List.all_eq_true.mp spaces⟩

def word (bytes : List Byte) (nonempty : bytes ≠ []) (solid : bytes.any isSpace = false)
    (clean : 0 ∉ bytes) : Word :=
  ⟨bytes, nonempty, fun char member => by simpa using List.any_eq_false.mp solid char member, clean⟩

def spaced (ip cit cap pro nat : Word) (after : Blank) : Fields :=
  let space : Gap := ⟨blank [32] rfl, List.cons_ne_nil _ _⟩
  ⟨blank [] rfl, ip, space, cit, space, cap, space, pro, space, nat, after⟩

def tokyo : Word := word (text "Tokyo") (by decide) (by decide) (by decide)

def fuzhou : Word := word (text "Fuzhou") (by decide) (by decide) (by decide)

def china : Line where
  toFields := spaced (word (text "1.0.1.0") (by decide) (by decide) (by decide)) fuzhou fuzhou
    (word (text "Fujian") (by decide) (by decide) (by decide))
    (word (text "China") (by decide) (by decide) (by decide)) (blank [] rfl)
  fits := by decide

def japan (after : Blank) (short : after.bytes.length ≤ 1) : Line where
  toFields := spaced (word (text "1.0.2.0") (by decide) (by decide) (by decide)) tokyo tokyo tokyo
    (word (text "Japan") (by decide) (by decide) (by decide)) after
  fits := by
    change (text "1.0.2.0 Tokyo Tokyo Tokyo Japan" ++ after.bytes).length ≤ 1023
    have length : (text "1.0.2.0 Tokyo Tokyo Tokyo Japan").length = 31 := by decide
    rw [List.length_append, length]
    omega

/-- With a line end of its own, the shorter line is read as it is. -/
theorem independent_example :
    Independent [china, japan (blank [13] rfl) (by decide)]
      (init ascii
        (some (text "1.0.1.0 Fuzhou Fuzhou Fujian China\n1.0.2.0 Tokyo Tokyo Tokyo Japan\r\n"))
        zeros fun _ => none) := by
  refine (independent_iff ascii _ _ (by decide +kernel) zeros _).mpr ⟨fun _ => ?_, ?_⟩
  · exact ⟨1023, by decide +kernel, by decide⟩
  · rintro front line ⟨⟨back, same⟩, _⟩
    rcases front with _ | ⟨first, _ | ⟨second, front⟩⟩
    · injection same with same
      subst same
      refine ⟨.inr (.inl (by decide +kernel)), ?_⟩
      intro left right found
      cases found
    · injection same with same rest
      injection rest with rest
      subst rest
      refine ⟨.inl (by decide), ?_⟩
      intro left right found
      cases found
    · simp at same

/-- Without it, the shorter line takes the end of the longer one. -/
theorem tail_kept :
    ¬ Independent [china, japan (blank [] rfl) (by decide)]
      (init ascii
        (some (text "1.0.1.0 Fuzhou Fuzhou Fujian China\n1.0.2.0 Tokyo Tokyo Tokyo Japan\n"))
        zeros fun _ => none) := by
  rintro ⟨positions, ran, answers⟩
  have second := answers [china] (japan (blank [] rfl) (by decide)) ⟨⟨[], rfl⟩, by decide⟩
  have found : (init ascii
      (some (text "1.0.1.0 Fuzhou Fuzhou Fujian China\n1.0.2.0 Tokyo Tokyo Tokyo Japan\n"))
      zeros fun _ => none).map (fun result => (get_location result.2 (text "1.0.2.0")).country) =
        some (text "Japanina") := by
    decide +kernel
  rw [ran] at found
  have country := congrArg IPLocation.country second
  exact absurd ((Option.some.inj found).symm.trans country) (by decide)

end AsrServer.Locations
