import AsrServer.ParseWorker

/-!
A decoded request as a list of fields separated by `&`, against the way
`parse_content` looks a parameter up: by the first occurrence of its name anywhere in
the text. The two agree when that occurrence begins a field.
-/

namespace AsrServer.ParameterFields

open Bytes UrlCode ParseWorker

def amp : Byte := 38

/-- `worker->request` after the first step: a C string from a buffer of 2048 bytes. -/
structure DecodedText where
  bytes : List Byte
  short : bytes.length ≤ 2047
  clean : 0 ∉ bytes

def DecodedText.of (request : List Byte) (length : request.length < 2 ^ 31) : DecodedText where
  bytes := decode_request request
  short := by
    rw [decode_request_eq request length]
    have cut := cstr_length ((URLDecode request).take 2047)
    rw [List.length_take] at cut
    omega
  clean := by
    rw [decode_request_eq request length]
    exact cstr_clean _

/-- The names `parse_worker` looks for. -/
inductive Key where
  | encode
  | type
  | deviceCxt
  | request
  | forcequery
  deriving DecidableEq, Repr

def Key.name : Key → List Byte
  | .encode => text "encode="
  | .type => text "type="
  | .deviceCxt => text "deviceCxt="
  | .request => text "request="
  | .forcequery => text "forcequery="

theorem Key.separate (key : Key) : amp ∉ key.name := by
  cases key <;> decide

theorem Key.length (key : Key) : 0 < key.name.length ∧ key.name.length ≤ 11 := by
  cases key <;> decide

def fields (request : List Byte) : List (List Byte) := request.splitOn amp

/-- Where the first field that begins with the name begins, and what follows the
name in it. -/
def firstField (name : List Byte) : List (List Byte) → Option (Nat × List Byte)
  | [] => none
  | field :: rest =>
      match field.dropPrefix? name with
      | some value => some (0, value)
      | none => (firstField name rest).map fun (start, value) => (field.length + 1 + start, value)

/-- A parameter is what the first field of its name says, and nothing else sets it. -/
structure FromField (source : REQUEST_SOURCE) (name request : List Byte) : Prop where
  succeeds : (parse_content source name request).isSome ↔
    ∃ start value, firstField name (fields request) = some (start, value) ∧ URLDecode value ≠ []
  value : ∀ result, parse_content source name request = some result →
    ∃ start value, firstField name (fields request) = some (start, value) ∧
      find request name = some start ∧ result = cstr (URLDecode value)

def Anchored (before : List Byte) : Prop := before = [] ∨ before.getLast? = some amp

/-- The first occurrence of the name begins a field; or it has no value there, and
the first field of that name, if there is one, has none either. -/
def OwnName (name request : List Byte) : Prop :=
  ∀ before after, request.dropInfix? name = some (before, after) →
    Anchored before ∨ ((after = [] ∨ after.head? = some amp) ∧
      ∀ start value, firstField name (fields request) = some (start, value) → value = [])

/-! What `parse_content` does, without positions. -/

def untilAmp (after : List Byte) : List Byte := after.takeWhile fun byte => byte != amp

theorem until_length (after : List Byte) : (untilAmp after).length ≤ after.length :=
  (List.takeWhile_sublist _).length_le

theorem until_append (front back : List Byte) (separate : amp ∉ front) :
    untilAmp (front ++ amp :: back) = front := by
  rw [untilAmp, List.takeWhile_append_of_pos]
  · simp
  · intro byte member
    rw [bne_iff_ne]
    exact fun same => separate (same ▸ member)

theorem until_self (front : List Byte) (separate : amp ∉ front) : untilAmp front = front := by
  rw [untilAmp, List.takeWhile_eq_self_iff]
  intro byte member
  rw [bne_iff_ne]
  exact fun same => separate (same ▸ member)

theorem field_cases (request : List Byte) :
    amp ∉ request ∨ ∃ back, request = untilAmp request ++ amp :: back ∧
      amp ∉ untilAmp request := by
  by_cases member : amp ∈ request
  · right
    have split := List.takeWhile_append_dropWhile (p := fun byte => byte != amp) (l := request)
    cases rest : request.dropWhile fun byte => byte != amp with
    | nil =>
        rw [List.dropWhile_eq_nil_iff] at rest
        simpa using rest amp member
    | cons first back =>
        have ends := List.head?_dropWhile_not (fun byte => byte != amp) request
        rw [rest] at ends split
        have same : first = amp := by simpa using ends
        refine ⟨back, ?_, ?_⟩
        · rw [← same]
          exact split.symm
        · intro inside
          have other := List.mem_takeWhile_imp inside
          simp at other
  · exact Or.inl member

theorem find_amp (after : List Byte) :
    (find after (text "&") = none ∧ untilAmp after = after) ∨
      ∃ back, find after (text "&") = some (untilAmp after).length ∧
        after = untilAmp after ++ amp :: back := by
  have one : text "&" = [amp] := by decide
  rw [one]
  rcases field_cases after with absent | ⟨back, split, separate⟩
  · left
    constructor
    · have missing : after.dropInfix? [amp] = none := by
        rw [Occurrence.split_none_iff]
        rintro left right rfl
        simp at absent
      simp [find, missing]
    · exact until_self after absent
  · right
    refine ⟨back, ?_, split⟩
    have first := Occurrence.split_of_first [amp] (untilAmp after) back (by
      intro left right same
      by_contra nonempty
      obtain ⟨front, last, shape⟩ := List.eq_nil_or_concat right |>.resolve_left nonempty
      rw [shape, List.concat_eq_append, ← List.append_assoc] at same
      have front_same := List.append_inj_left' same rfl
      exact separate (by rw [front_same]; simp))
    have whole : untilAmp after ++ [amp] ++ back = after := by
      rw [List.append_assoc]
      exact split.symm
    rw [whole] at first
    simp [find, first]

def decoded (value : List Byte) : Option (List Byte) :=
  if URLDecode value = [] then none else some (cstr (URLDecode value))

theorem key_end_eq (front after : List Byte) (short : front.length + after.length < 2 ^ 31) :
    (if intPos (findFrom (front ++ after) (text "&") front.length) < 0 then
        toInt (front ++ after).length
      else intPos (findFrom (front ++ after) (text "&") front.length)) =
      ((front.length + (untilAmp after).length : Nat) : Int) := by
  have cut := until_length after
  have inside : (0 : Int) ≤ front.length ∧
      (front.length : Int) ≤ (front ++ after).length := by
    simp
  rw [findFrom, if_pos inside, Int.toNat_natCast, List.drop_left]
  rcases find_amp after with ⟨missing, all⟩ | ⟨back, found, _⟩
  · rw [missing, Option.map_none, intPos_none, if_pos (by decide), List.length_append,
      toInt_eq _ (by omega) (by omega), all]
  · rw [found, Option.map_some, intPos_some, toInt_eq _ (by omega) (by omega),
      if_neg (by omega)]

/-- The value is decoded as `URLDecode` does: it fits the buffer, and no digit follows it. -/
theorem value_decoded (after : List Byte) (short : after.length ≤ 8190) :
    decode_loop 8190 after (untilAmp after).length = URLDecode (untilAmp after) := by
  have cut := until_length after
  have size := (decode_length (untilAmp after)).1
  have ends : ∃ tail, after = untilAmp after ++ tail ∧ isxdigit (tail.getD 0 0) = false := by
    rcases find_amp after with ⟨_, all⟩ | ⟨back, _, same⟩
    · exact ⟨[], by rw [List.append_nil, all], by decide⟩
    · exact ⟨amp :: back, same, by rw [List.getD_cons_zero]; decide⟩
  obtain ⟨tail, same, ends⟩ := ends
  have loop := decode_loop_eq (untilAmp after) tail 8190 ends
  rw [← same] at loop
  rw [loop, List.take_of_length_le (by omega)]

theorem parse_content_eq (source : REQUEST_SOURCE) (name request : List Byte)
    (short : request.length ≤ 2047) :
    parse_content source name request =
      (request.dropInfix? name).bind fun (_, after) => decoded (untilAmp after) := by
  cases split : request.dropInfix? name with
  | none => simp [parse_content, find, split]
  | some parts =>
      obtain ⟨before, after⟩ := parts
      have whole := Occurrence.split_text _ _ _ _ split
      have lengths := congrArg List.length whole
      simp only [List.length_append] at lengths
      -- The request is at most 2047 bytes long, so no position wraps.
      have found : intPos (find request name) = before.length := by
        rw [find, split, intPos_some, toInt_eq _ (by omega) (by omega)]
      have key_start : toInt ((before.length : Int) + name.length) = (before ++ name).length := by
        rw [toInt_eq _ (by omega) (by omega), List.length_append]
        omega
      have key_end := key_end_eq (before ++ name) after (by rw [List.length_append]; omega)
      rw [← whole] at key_end
      have cut := until_length after
      have key_len : toInt (((before ++ name).length + (untilAmp after).length : Nat) -
          ((before ++ name).length : Int)) = (untilAmp after).length := by
        rw [toInt_eq _ (by omega) (by omega)]
        omega
      have rest : request.drop (before ++ name).length = after := by
        rw [whole, List.drop_left]
      have buf := value_decoded after (by omega)
      have size := (decode_length (untilAmp after)).1
      have both : parse_content source name request =
          if 0 < (URLDecode (untilAmp after)).length ∧
              (URLDecode (untilAmp after)).length ≤ 8191 then
            some (cstr (URLDecode (untilAmp after)))
          else none := by
        simp only [parse_content, found, key_start, key_end, key_len, Int.toNat_natCast, rest]
        rw [if_neg (by omega)]
        cases source with
        | DEFAULT_SOURCE => simp only [url_utf8_decode, Nat.reduceSub, buf]
        | PLUGIN_SOURCE => simp only [url_utf16_decode, Nat.reduceSub, buf]
      rw [both, Option.bind_some]
      simp only [decoded]
      by_cases nothing : URLDecode (untilAmp after) = []
      · simp [nothing]
      · have positive := List.length_pos_iff.mpr nothing
        rw [if_pos ⟨positive, by omega⟩, if_neg nothing]

/-! The first occurrence of a name against the first field that begins with it. -/

@[elab_as_elim] theorem field_induction {motive : List Byte → Prop}
    (alone : ∀ field, amp ∉ field → motive field)
    (more : ∀ field back, amp ∉ field → motive back → motive (field ++ amp :: back))
    (request : List Byte) : motive request := by
  induction size : request.length using Nat.strongRecOn generalizing request with
  | ind length ih =>
      rcases field_cases request with absent | ⟨back, split, separate⟩
      · exact alone request absent
      · rw [split]
        apply more _ _ separate
        apply ih back.length _ back rfl
        rw [← size, split]
        simp
        omega

theorem fields_alone (field : List Byte) (separate : amp ∉ field) : fields field = [field] :=
  List.splitOn_eq_singleton separate

theorem fields_more (field back : List Byte) (separate : amp ∉ field) :
    fields (field ++ amp :: back) = field :: fields back := by
  rw [fields, List.splitOn_append_cons_of_beq field back (beq_self_eq_true amp),
    List.splitOn_eq_singleton separate]
  rfl

theorem begins_iff (name field value : List Byte) :
    field.dropPrefix? name = some value ↔ field.dropInfix? name = some ([], value) := by
  rw [List.dropPrefix?_eq_some_iff, Occurrence.split_iff]
  simp

theorem begins_none (name field : List Byte) (missing : field.dropInfix? name = none) :
    field.dropPrefix? name = none := by
  cases begins : field.dropPrefix? name with
  | none => rfl
  | some value =>
      rw [begins_iff, missing] at begins
      cases begins

theorem anchored_inside (field before after name : List Byte) (absent : amp ∉ field)
    (inside : field.dropInfix? name = some (before, after)) :
    Anchored before ↔ before = [] := by
  constructor
  · rintro (empty | last)
    · exact empty
    · have whole := Occurrence.split_text _ _ _ _ inside
      have member := List.mem_of_getLast? last
      exact absurd (by rw [whole]; simp [member]) absent
  · exact Or.inl

theorem first_field_head (name field before after : List Byte) (rest : List (List Byte))
    (absent : amp ∉ field) (inside : field.dropInfix? name = some (before, after)) :
    (Anchored before → firstField name (field :: rest) = some (before.length, after)) ∧
      (¬ Anchored before → ∀ start value,
        firstField name (field :: rest) = some (start, value) → before.length < start) := by
  rw [anchored_inside field before after name absent inside]
  constructor
  · rintro rfl
    have begins := (begins_iff name field after).mpr inside
    simp [firstField, begins]
  · intro later start value first
    cases begins : field.dropPrefix? name with
    | some other =>
        have same := (begins_iff name field other).mp begins
        rw [inside, Option.some.injEq, Prod.mk.injEq] at same
        exact absurd same.1 later
    | none =>
        have whole := congrArg List.length (Occurrence.split_text _ _ _ _ inside)
        simp only [List.length_append] at whole
        simp only [firstField, begins, Option.map_eq_some_iff, Prod.mk.injEq] at first
        obtain ⟨⟨offset, _⟩, _, same, _⟩ := first
        omega

/-- The first field of a name begins at the first occurrence, if that begins a field,
and behind it otherwise. -/
theorem first_field_at (name request before after : List Byte) (separate : amp ∉ name)
    (split : request.dropInfix? name = some (before, after)) :
    (Anchored before → firstField name (fields request) = some (before.length, untilAmp after)) ∧
      (¬ Anchored before → ∀ start value,
        firstField name (fields request) = some (start, value) → before.length < start) := by
  -- On the fields: the name occurs in the first one, or in those behind it.
  induction request using field_induction generalizing before after with
  | alone field absent =>
      have whole := Occurrence.split_text _ _ _ _ split
      have last : untilAmp after = after := by
        apply until_self
        intro member
        exact absent (by rw [whole]; simp [member])
      rw [fields_alone field absent, last]
      exact first_field_head name field before after [] absent split
  | more field back absent ih =>
      rw [fields_more field back absent]
      rw [Occurrence.split_separator field back name amp separate] at split
      cases inside : field.dropInfix? name with
      | some parts =>
          simp only [inside, Option.some.injEq, Prod.mk.injEq] at split
          obtain ⟨rfl, rfl⟩ := split
          have whole := Occurrence.split_text _ _ _ _ inside
          rw [until_append]
          · exact first_field_head name field parts.1 parts.2 _ absent inside
          · intro member
            exact absent (by rw [whole]; simp [member])
      | none =>
          simp only [inside, Option.map_eq_some_iff, Prod.mk.injEq] at split
          obtain ⟨⟨front, rest⟩, later, rfl, rfl⟩ := split
          have other := begins_none name field inside
          have behind := ih front rest later
          have anchored : Anchored (field ++ amp :: front) ↔ Anchored front := by
            cases front with
            | nil => simp [Anchored]
            | cons first more => simp [Anchored]
          rw [anchored]
          simp only [firstField, other]
          constructor
          · intro begins
            rw [behind.1 begins, Option.map_some]
            simp
            omega
          · intro inner start value first
            simp only [Option.map_eq_some_iff, Prod.mk.injEq] at first
            obtain ⟨⟨offset, _⟩, found, same, _⟩ := first
            have further := behind.2 inner offset _ found
            simp only [List.length_append, List.length_cons]
            omega

theorem first_field_none (name request : List Byte) (separate : amp ∉ name)
    (missing : request.dropInfix? name = none) : firstField name (fields request) = none := by
  induction request using field_induction with
  | alone field absent =>
      rw [fields_alone field absent]
      simp [firstField, begins_none name field missing]
  | more field back absent ih =>
      rw [fields_more field back absent]
      rw [Occurrence.split_separator field back name amp separate] at missing
      cases inside : field.dropInfix? name with
      | some parts => simp [inside] at missing
      | none =>
          simp only [inside, Option.map_eq_none_iff] at missing
          simp [firstField, begins_none name field inside, ih missing]

theorem silent_iff (after : List Byte) :
    URLDecode (untilAmp after) = [] ↔ after = [] ∨ after.head? = some amp := by
  rw [decode_eq_nil]
  cases after with
  | nil => simp [untilAmp]
  | cons first rest => by_cases same : first = amp <;> simp [untilAmp, same]

section Found

variable (source : REQUEST_SOURCE) (key : Key) (request : DecodedText) {before after : List Byte}
  (split : request.bytes.dropInfix? key.name = some (before, after))

include split in
theorem parsed_found : parse_content source key.name request.bytes =
    decoded (untilAmp after) := by
  rw [parse_content_eq source key.name request.bytes request.short, split, Option.bind_some]

include split in
theorem place_found : find request.bytes key.name = some before.length := by
  simp [find, split]

include split in
theorem from_field_anchored (anchored : Anchored before) :
    FromField source key.name request.bytes := by
  have parsed := parsed_found source key request split
  have first := (first_field_at key.name request.bytes before after key.separate split).1 anchored
  constructor
  · rw [parsed, decoded, first]
    by_cases nothing : URLDecode (untilAmp after) = []
    · simp [nothing]
    · simp [nothing]
  · intro result found
    rw [parsed, decoded] at found
    split at found
    · cases found
    · exact ⟨before.length, untilAmp after, first, place_found key request split,
        (Option.some.inj found).symm⟩

include split in
theorem from_field_later (inner : ¬ Anchored before) :
    FromField source key.name request.bytes ↔ (after = [] ∨ after.head? = some amp) ∧
      ∀ start value, firstField key.name (fields request.bytes) = some (start, value) →
        value = [] := by
  have parsed := parsed_found source key request split
  have later := (first_field_at key.name request.bytes before after key.separate split).2 inner
  rw [← silent_iff]
  constructor
  · intro own
    have silent : URLDecode (untilAmp after) = [] := by
      by_contra said
      obtain ⟨start, value, first, found, _⟩ := own.value (cstr (URLDecode (untilAmp after)))
        (by rw [parsed, decoded, if_neg said])
      rw [place_found key request split, Option.some.injEq] at found
      have behind := later start value first
      omega
    refine ⟨silent, ?_⟩
    intro start value first
    by_contra nonempty
    have succeeds := own.succeeds.mpr
      ⟨start, value, first, fun empty => nonempty ((decode_eq_nil value).mp empty)⟩
    rw [parsed, decoded, if_pos silent] at succeeds
    cases succeeds
  · rintro ⟨silent, others⟩
    have fails : parse_content source key.name request.bytes = none := by
      rw [parsed, decoded, if_pos silent]
    constructor
    · rw [fails]
      simp only [Option.isSome_none, Bool.false_eq_true, false_iff]
      rintro ⟨start, value, first, nonempty⟩
      exact nonempty ((decode_eq_nil value).mpr (others start value first))
    · intro result found
      rw [fails] at found
      cases found

end Found

theorem from_field_absent (source : REQUEST_SOURCE) (key : Key) (request : DecodedText)
    (absent : request.bytes.dropInfix? key.name = none) :
    FromField source key.name request.bytes := by
  have parsed := parse_content_eq source key.name request.bytes request.short
  rw [absent, Option.bind_none] at parsed
  have nothing := first_field_none key.name request.bytes key.separate absent
  constructor
  · simp [parsed, nothing]
  · simp [parsed]

/-- A parameter comes from its own field exactly when the first occurrence of its
name does, or says nothing. -/
theorem from_field_iff (source : REQUEST_SOURCE) (key : Key) (request : DecodedText) :
    FromField source key.name request.bytes ↔ OwnName key.name request.bytes := by
  rw [OwnName]
  cases split : request.bytes.dropInfix? key.name with
  | none =>
      constructor
      · intro _ _ _ found
        cases found
      · exact fun _ => from_field_absent source key request split
  | some parts =>
      obtain ⟨before, after⟩ := parts
      by_cases anchored : Anchored before
      · constructor
        · rintro _ _ _ ⟨⟩
          exact Or.inl anchored
        · exact fun _ => from_field_anchored source key request split anchored
      · rw [from_field_later source key request split anchored]
        constructor
        · rintro silent _ _ ⟨⟩
          exact Or.inr silent
        · intro own
          exact (own before after rfl).resolve_left anchored

theorem force_query_field (source : REQUEST_SOURCE) (request : List Byte)
    (own : FromField source Key.forcequery.name request)
    (forced : force_query source request = true) :
    ∃ start value, firstField Key.forcequery.name (fields request) = some (start, value) ∧
      cstr (URLDecode value) = text "true" := by
  rw [force_query, content, beq_iff_eq] at forced
  cases parsed : parse_content source (text "forcequery=") request with
  | none =>
      rw [parsed] at forced
      exact absurd forced (by decide)
  | some result =>
      obtain ⟨start, value, first, _, same⟩ := own.value result parsed
      rw [parsed, Option.getD_some] at forced
      exact ⟨start, value, first, by rw [← same, forced]⟩

/-- The name inside another name: `subtype=5` sets the type, and `xforcequery=true`
forces the query. -/
theorem suffix_name_taken :
    (¬ FromField .DEFAULT_SOURCE (text "type=") (text "subtype=5")) ∧
      ¬ FromField .DEFAULT_SOURCE (text "forcequery=") (text "xforcequery=true") ∧
      force_query .DEFAULT_SOURCE (text "xforcequery=true") = true := by
  refine ⟨?_, ?_, by decide +kernel⟩
  · intro own
    obtain ⟨start, value, first, _⟩ := own.value (text "5") (by decide +kernel)
    have absent : firstField (text "type=") (fields (text "subtype=5")) = none := by decide +kernel
    rw [absent] at first
    cases first
  · intro own
    obtain ⟨start, value, first, _⟩ := own.value (text "true") (by decide +kernel)
    have absent : firstField (text "forcequery=") (fields (text "xforcequery=true")) = none := by
      decide +kernel
    rw [absent] at first
    cases first

end AsrServer.ParameterFields
