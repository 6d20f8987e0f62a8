import AsrServer.ParameterFields

/-!
A form body built by `add_param` and taken apart by `parse_worker`. The body is decoded
once as a whole and each value once more, and a name is found wherever it first
occurs, so a value arrives when it holds nothing to decode and no separator, and no
value ahead of it holds its name.
-/

namespace AsrServer.FormParameters

open Bytes UrlCode ParseWorker ParameterFields

def add_param (content key value : List Byte) : List Byte := content ++ key ++ URLEncode value

def body (sent : Texts) : List Byte :=
  add_param (add_param (add_param (add_param [] (text "encode=") sent.encode)
    (text "&type=") sent.type) (text "&deviceCxt=") sent.deviceCxt) (text "&request=") sent.request

/-- Values without zero bytes, few enough for the buffer of the first decoding. -/
structure Sent where
  values : Texts
  encode : 0 ∉ values.encode
  type : 0 ∉ values.type
  deviceCxt : 0 ∉ values.deviceCxt
  request : 0 ∉ values.request
  fits : (URLDecode (body values)).length ≤ 2047

/-- What `parse_worker` reads from a body. -/
def received (source : REQUEST_SOURCE) (body : List Byte) : Texts :=
  texts source (decode_request body)

/-- A value that stands for itself: no separator, no plus, no escape. -/
structure Plain (value : List Byte) : Prop where
  separate : amp ∉ value
  unescaped : Unescaped value

def behind (name value : List Byte) : Option (List Byte) :=
  (value.dropInfix? name).map Prod.snd

/-- No earlier value holds the name and the value is plain; or the first that holds it
goes on, behind its first occurrence, with the very value. -/
def Arrives (name : List Byte) (earlier : List (List Byte)) (own : List Byte) : Prop :=
  earlier.findSome? (behind name) = some own ∨
    (earlier.findSome? (behind name) = none ∧ Plain own)

structure Kept (sent : Texts) : Prop where
  encode : Arrives (text "encode=") [] sent.encode
  type : Arrives (text "type=") [sent.encode] sent.type
  deviceCxt : Arrives (text "deviceCxt=") [sent.encode, sent.type] sent.deviceCxt
  request : Arrives (text "request=") [sent.encode, sent.type, sent.deviceCxt] sent.request

/-! The decoded body as named fields. -/

def form : List (List Byte × List Byte) → List Byte
  | [] => []
  | [(name, value)] => name ++ value
  | (name, value) :: next :: rest => name ++ value ++ amp :: form (next :: rest)

def namedFields (sent : Texts) : List (List Byte × List Byte) :=
  [(text "encode=", sent.encode), (text "type=", sent.type),
    (text "deviceCxt=", sent.deviceCxt), (text "request=", sent.request)]

theorem decode_body (sent : Texts) : URLDecode (body sent) = form (namedFields sent) := by
  have first : text "&type=" = amp :: text "type=" := by decide
  have second : text "&deviceCxt=" = amp :: text "deviceCxt=" := by decide
  have third : text "&request=" = amp :: text "request=" := by decide
  have last := decode_encode sent.request []
  rw [List.append_nil] at last
  simp only [body, add_param, List.nil_append, List.append_assoc]
  rw [decode_front _ _ (by decide) (by decide), decode_encode,
    decode_front _ _ (by decide) (by decide), decode_encode,
    decode_front _ _ (by decide) (by decide), decode_encode,
    decode_front _ _ (by decide) (by decide), last, first, second, third]
  simp [form, namedFields, URLDecode]

theorem decode_request_body (sent : Sent) :
    decode_request (body sent.values) = form (namedFields sent.values) := by
  have sizes := decode_length (body sent.values)
  have fits := sent.fits
  have clean : 0 ∉ form (namedFields sent.values) := by
    have names : 0 ∉ text "encode=" ∧ 0 ∉ text "type=" ∧ 0 ∉ text "deviceCxt=" ∧
        0 ∉ text "request=" ∧ 0 ≠ amp := by decide
    simp [form, namedFields, names, sent.encode, sent.type, sent.deviceCxt, sent.request]
  rw [decode_request_eq _ (by omega), List.take_of_length_le fits, decode_body, cstr_eq _ clean]

/-! Looking a name up in a form. -/

/-- No occurrence of `name` can begin inside `ahead`, whatever follows it. -/
def Apart (ahead name : List Byte) : Prop :=
  ∀ index < ahead.length,
    (ahead.drop index).take name.length ≠ name.take (ahead.length - index)

instance (ahead name : List Byte) : Decidable (Apart ahead name) :=
  inferInstanceAs (Decidable (∀ index < ahead.length,
    (ahead.drop index).take name.length ≠ name.take (ahead.length - index)))

theorem apart_behind (ahead name value left right : List Byte) (apart : Apart ahead name)
    (occurs : ahead ++ value = left ++ name ++ right) : ahead.length ≤ left.length := by
  by_contra inside
  apply apart left.length (by omega)
  have shape : (ahead ++ value).drop left.length = name ++ right := by
    rw [occurs, List.append_assoc, List.drop_left]
  rw [List.drop_append_of_le_length (by omega)] at shape
  have front := congrArg (List.take (min name.length (ahead.length - left.length))) shape
  rw [List.take_append_of_le_length (by simp), List.take_append_of_le_length (by simp)] at front
  rw [List.take_eq_take_min (l := ahead.drop left.length), List.length_drop, front, Nat.min_comm]
  exact List.take_eq_take_min.symm

theorem behind_named (name ahead value : List Byte) (apart : Apart ahead name) :
    behind name (ahead ++ value) = behind name value := by
  cases split : value.dropInfix? name with
  | none =>
      have missing : (ahead ++ value).dropInfix? name = none := by
        rw [Occurrence.split_none_iff]
        intro left right occurs
        have further := apart_behind ahead name value left right apart occurs
        have inside := congrArg (List.drop ahead.length) occurs
        rw [List.drop_left, List.append_assoc, List.drop_append_of_le_length further,
          ← List.append_assoc] at inside
        exact (Occurrence.split_none_iff value name).mp split _ right inside
      simp [behind, split, missing]
  | some parts =>
      obtain ⟨whole, first⟩ := (Occurrence.split_iff _ _ parts.1 parts.2).mp split
      have found : (ahead ++ value).dropInfix? name = some (ahead ++ parts.1, parts.2) := by
        rw [Occurrence.split_iff]
        constructor
        · rw [whole]
          simp
        · intro left right occurs
          have further := apart_behind ahead name value left right apart occurs
          have inside := congrArg (List.drop ahead.length) occurs
          rw [List.drop_left, List.append_assoc, List.drop_append_of_le_length further,
            ← List.append_assoc] at inside
          have least := first _ right inside
          rw [List.length_drop] at least
          rw [List.length_append]
          omega
      simp [behind, split, found]

theorem behind_self (name rest : List Byte) : behind name (name ++ rest) = some rest := by
  have found : (name ++ rest).dropInfix? name = some ([], rest) := by
    rw [Occurrence.split_iff]
    simp
  simp [behind, found]

theorem behind_form (name ahead value : List Byte) (next : List Byte × List Byte)
    (rest : List (List Byte × List Byte)) (separate : amp ∉ name) (apart : Apart ahead name) :
    behind name (form ((ahead, value) :: next :: rest)) =
      match behind name value with
      | some after => some (after ++ amp :: form (next :: rest))
      | none => behind name (form (next :: rest)) := by
  have field := behind_named name ahead value apart
  simp only [form, behind] at field ⊢
  rw [Occurrence.split_separator (ahead ++ value) _ name amp separate]
  cases inside : (ahead ++ value).dropInfix? name with
  | some parts =>
      rw [inside, Option.map_some] at field
      simp [← field]
  | none =>
      rw [inside, Option.map_none] at field
      simp [← field, Function.comp_def]

/-! Values. -/

theorem Plain.suffix {value rest : List Byte} (plain : Plain value) (suffix : rest <:+ value) :
    Plain rest := by
  constructor
  · intro member
    exact plain.separate (suffix.subset member)
  · exact plain.unescaped.suffix suffix

theorem behind_suffix (name value after : List Byte) (found : behind name value = some after) :
    after <:+ value := by
  simp only [behind, Option.map_eq_some_iff] at found
  obtain ⟨parts, split, rfl⟩ := found
  exact ⟨parts.1 ++ name, (Occurrence.split_text _ _ _ _ split).symm⟩

def Ends (tail : List Byte) : Prop := tail = [] ∨ ∃ back, tail = amp :: back

theorem until_plain (value tail : List Byte) (ends : Ends tail) (separate : amp ∉ value) :
    untilAmp (value ++ tail) = value := by
  rcases ends with rfl | ⟨back, rfl⟩
  · rw [List.append_nil]
    exact until_self value separate
  · exact until_append value back separate

theorem read_iff (value tail : List Byte) (ends : Ends tail) (clean : 0 ∉ value) :
    cstr (URLDecode (untilAmp (value ++ tail))) = value ↔ Plain value := by
  constructor
  · intro same
    have cut := cstr_length (URLDecode (untilAmp (value ++ tail)))
    have size := (decode_length (untilAmp (value ++ tail))).1
    rw [same] at cut
    have separate : amp ∉ value := by
      intro member
      -- The value is cut at its separator.
      obtain ⟨back, split, first⟩ := (field_cases value).resolve_left (not_not_intro member)
      have shorter : untilAmp (value ++ tail) = untilAmp value := by
        have rest := until_append (untilAmp value) (back ++ tail) first
        rw [← List.cons_append, ← List.append_assoc, ← split] at rest
        exact rest
      have lengths := congrArg List.length split
      rw [List.length_append, List.length_cons] at lengths
      rw [shorter] at cut size
      omega
    have whole := until_plain value tail ends separate
    rw [whole] at same cut size
    constructor
    · exact separate
    · rw [← decode_eq_self_iff]
      have longest := (List.takeWhile_sublist (fun byte : Byte => byte != 0)
        (l := URLDecode value)).eq_of_length (by
          change (cstr (URLDecode value)).length = _
          rw [same]
          omega)
      exact longest.symm.trans same
  · intro plain
    rw [until_plain value tail ends plain.separate, (decode_eq_self_iff value).mpr plain.unescaped,
      cstr_eq value clean]

theorem content_eq (source : REQUEST_SOURCE) (key : String) (request : List Byte)
    (short : request.length ≤ 2047) :
    content source key request =
      ((behind (text key) request).map fun after => cstr (URLDecode (untilAmp after))).getD [] := by
  rw [content, parse_content_eq source _ _ short, behind]
  cases split : request.dropInfix? (text key) with
  | none => rfl
  | some parts =>
      simp only [Option.bind_some, Option.map_some, Option.getD_some, decoded]
      by_cases nothing : URLDecode (untilAmp parts.2) = []
      · simp [nothing, cstr]
      · simp [nothing]

theorem form_cons (name value : List Byte) (rest : List (List Byte × List Byte)) :
    ∃ tail, form ((name, value) :: rest) = name ++ (value ++ tail) ∧ Ends tail := by
  cases rest with
  | nil => exact ⟨[], by simp [form], Or.inl rfl⟩
  | cons next more => exact ⟨amp :: form (next :: more), by simp [form], Or.inr ⟨_, rfl⟩⟩

theorem read_form (name own : List Byte) (earlier later : List (List Byte × List Byte))
    (separate : amp ∉ name) (clean : 0 ∉ own)
    (others : ∀ field ∈ earlier, Apart field.1 name ∧ Plain field.2 ∧ 0 ∉ field.2) :
    ∃ after, behind name (form (earlier ++ (name, own) :: later)) = some after ∧
      (cstr (URLDecode (untilAmp after)) = own ↔ Arrives name (earlier.map Prod.snd) own) := by
  induction earlier with
  | nil =>
      obtain ⟨tail, shape, ends⟩ := form_cons name own later
      refine ⟨own ++ tail, ?_, ?_⟩
      · rw [List.nil_append, shape, behind_self]
      · rw [read_iff own tail ends clean]
        simp [Arrives]
  | cons field rest ih =>
      obtain ⟨ahead, value⟩ := field
      obtain ⟨apart, plain, zero⟩ := others (ahead, value) (by simp)
      obtain ⟨after, found, iff⟩ := ih fun other member =>
        others other (List.mem_cons_of_mem _ member)
      obtain ⟨next, more, shape⟩ : ∃ next more, rest ++ (name, own) :: later = next :: more := by
        cases rest with
        | nil => exact ⟨_, _, rfl⟩
        | cons first others => exact ⟨_, _, rfl⟩
      have step := behind_form name ahead value next more separate apart
      rw [List.cons_append, shape, step]
      cases inside : behind name value with
      | none =>
          refine ⟨after, ?_, ?_⟩
          · rw [← shape]
            exact found
          · rw [iff]
            simp [Arrives, inside]
      | some held =>
          -- An earlier value holds the name: what follows it there is what is read.
          have suffix := behind_suffix name value held inside
          have same := (read_iff held (amp :: form (next :: more)) (Or.inr ⟨_, rfl⟩)
            (fun member => zero (suffix.subset member))).mpr (plain.suffix suffix)
          refine ⟨_, rfl, ?_⟩
          rw [same]
          simp [Arrives, inside]

theorem Arrives.plain {name own : List Byte} {earlier : List (List Byte)}
    (arrives : Arrives name earlier own) (plain : ∀ value ∈ earlier, Plain value) :
    Plain own := by
  rcases arrives with found | ⟨_, own⟩
  · obtain ⟨value, member, here⟩ := List.exists_of_findSome?_eq_some found
    exact (plain value member).suffix (behind_suffix name value own here)
  · exact own

/-- The four parameters are read back as they were sent exactly when each arrives. -/
theorem received_iff (source : REQUEST_SOURCE) (sent : Sent) :
    received source (body sent.values) = sent.values ↔ Kept sent.values := by
  have short : (form (namedFields sent.values)).length ≤ 2047 := by
    rw [← decode_body]
    exact sent.fits
  have each (name : String) (own : List Byte) (earlier later : List (List Byte × List Byte))
      (split : namedFields sent.values = earlier ++ (text name, own) :: later)
      (separate : amp ∉ text name) (clean : 0 ∉ own)
      (others : ∀ field ∈ earlier, Apart field.1 (text name) ∧ Plain field.2 ∧ 0 ∉ field.2) :
      content source name (form (namedFields sent.values)) = own ↔
        Arrives (text name) (earlier.map Prod.snd) own := by
    obtain ⟨after, found, iff⟩ := read_form (text name) own earlier later separate clean others
    rw [content_eq source name _ short, split, found]
    exact iff
  have encode := each "encode=" sent.values.encode [] _ rfl (by decide) sent.encode (by simp)
  have type (first : Plain sent.values.encode) :=
    each "type=" sent.values.type [_] _ rfl (by decide) sent.type (by
      simp only [List.mem_singleton, forall_eq]
      exact ⟨by decide, first, sent.encode⟩)
  have deviceCxt (first : Plain sent.values.encode) (second : Plain sent.values.type) :=
    each "deviceCxt=" sent.values.deviceCxt [_, _] _ rfl (by decide) sent.deviceCxt (by
      simp only [List.mem_cons, List.not_mem_nil, or_false, forall_eq_or_imp, forall_eq]
      exact ⟨⟨by decide, first, sent.encode⟩, by decide, second, sent.type⟩)
  have request (first : Plain sent.values.encode) (second : Plain sent.values.type)
      (third : Plain sent.values.deviceCxt) :=
    each "request=" sent.values.request [_, _, _] _ rfl (by decide) sent.request (by
      simp only [List.mem_cons, List.not_mem_nil, or_false, forall_eq_or_imp, forall_eq]
      exact ⟨⟨by decide, first, sent.encode⟩, ⟨by decide, second, sent.type⟩, by decide, third,
        sent.deviceCxt⟩)
  rw [received, decode_request_body sent]
  constructor
  · intro same
    have first := encode.mp (congrArg Texts.encode same)
    have encodes := first.plain (by simp)
    have second := (type encodes).mp (congrArg Texts.type same)
    have types := second.plain (by simp [encodes])
    have third := (deviceCxt encodes types).mp (congrArg Texts.deviceCxt same)
    have devices := third.plain (by simp [encodes, types])
    have fourth := (request encodes types devices).mp (congrArg Texts.request same)
    exact ⟨first, second, third, fourth⟩
  · intro kept
    have encodes := kept.encode.plain (by simp)
    have types := kept.type.plain (by simp [encodes])
    have devices := kept.deviceCxt.plain (by simp [encodes, types])
    have first := encode.mpr kept.encode
    have second := (type encodes).mpr kept.type
    have third := (deviceCxt encodes types).mpr kept.deviceCxt
    have fourth := (request encodes types devices).mpr kept.request
    rw [texts, first, second, third, fourth]

/-- A plus sign in a value arrives as a space. -/
theorem plus_lost : ∃ sent : Sent, sent.values.request = text "a+b" ∧
    received .DEFAULT_SOURCE (body sent.values) ≠ sent.values :=
  ⟨⟨⟨text "utf8", text "1", text "{}", text "a+b"⟩, by decide, by decide, by decide, by decide,
    by decide +kernel⟩, rfl, by decide +kernel⟩

end AsrServer.FormParameters
