import AsrServer.WorkerStore

/-!
What of a flat object reaches the worker's store. Every member is looked up again by its
own name as a path. A name that is one segment, with separators around it or not, stands for
the member of that segment's name; any other leads to the object itself, or on from a string
or into an array that is not there, and all of that reads as the empty string.
-/

namespace AsrServer.MemberArrival

open Bytes RequestHeader ParseWorker JsonReader JsonNesting JsonPath WorkerStore

def flat (members : StringMap) : List (List Byte × Value) :=
  members.map fun member => (member.1, .string member.2)

def stringMembers : List (List Byte × Value) → Option StringMap
  | [] => some []
  | (name, .string value) :: rest => (stringMembers rest).map ((name, value) :: ·)
  | _ :: _ => none

def flatMembers : Value → Option StringMap
  | .object members => stringMembers members
  | _ => none

theorem flat_of_stringMembers (members : List (List Byte × Value)) (strings : StringMap)
    (read : stringMembers members = some strings) : members = flat strings := by
  induction members generalizing strings with
  | nil =>
      cases read
      rfl
  | cons member rest ih =>
      obtain ⟨name, value⟩ := member
      cases value with
      | string value =>
          obtain ⟨others, later, rfl⟩ := Option.map_eq_some_iff.mp read
          rw [ih others later]
          rfl
      | _ => cases read

theorem parse_flat {double : List Byte → Option (List Byte)} {document : List Byte}
    {members : StringMap}
    (read : (parse double document).map (fun res => res.bind flatMembers) = .ok (some members)) :
    parse double document = .ok (some (.object (flat members))) := by
  match parse double document, read with
  | .ok (some (.object others)), read =>
      have strings := flat_of_stringMembers others members (Except.ok.inj read)
      rw [strings]

/-! Paths with at most one segment. -/

inductive Separators : List Byte → Prop where
  | nil : Separators []
  | dot {rest} : Separators rest → Separators (46 :: rest)
  | percent {rest} : Separators rest → Separators (37 :: rest)
  | argument {rest} : Separators rest → Separators (91 :: 37 :: rest)

structure Segment (key : List Byte) : Prop where
  nonempty : key ≠ []
  inside : ∀ c ∈ key, inSegment c = true
  first : key.head? ≠ Option.some 37

/-- The name is the key, with separators around it. -/
inductive Stands (key : List Byte) : List Byte → Prop where
  | segment {name after} : name = key ++ after → Segment key → Separators after →
      after.head? ≠ some 37 → Stands key name
  | dot {rest} : Stands key rest → Stands key (46 :: rest)
  | percent {rest} : Stands key rest → Stands key (37 :: rest)
  | argument {rest} : Stands key rest → Stands key (91 :: 37 :: rest)

/-- What the name leads to is the member's own value. -/
structure Arrives (members : StringMap) (member : List Byte × List Byte) : Prop where
  returns : Safe member.1
  segment : ∀ key, Stands key member.1 → member.2 = (members.lookup key).getD []
  other : (∀ key, ¬ Stands key member.1) → member.2 = []

theorem Segment.cons {key : List Byte} (segment : Segment key) : ∃ c rest, key = c :: rest ∧
    inSegment c = true ∧ c ≠ 37 := by
  cases key with
  | nil => exact absurd rfl segment.nonempty
  | cons c rest =>
      refine ⟨c, rest, rfl, segment.inside c (by simp), ?_⟩
      rintro rfl
      exact segment.first rfl

theorem Segment.head {key after rest : List Byte} {c : Byte} (segment : Segment key)
    (same : c :: rest = key ++ after) : inSegment c = true ∧ c ≠ 37 := by
  obtain ⟨first, more, shape, inside, plain⟩ := segment.cons
  rw [shape, List.cons_append, List.cons.injEq] at same
  rw [same.1]
  exact ⟨inside, plain⟩

theorem stands_nil (key : List Byte) : ¬ Stands key [] := by
  intro stands
  cases stands with
  | segment same segment _ _ => exact segment.nonempty (List.append_eq_nil_iff.mp same.symm).1

theorem stands_dot (key rest : List Byte) : Stands key (46 :: rest) ↔ Stands key rest := by
  constructor
  · intro stands
    cases stands with
    | segment same segment _ _ => exact absurd (segment.head same).1 (by decide)
    | dot later => exact later
  · exact .dot

theorem stands_percent (key rest : List Byte) : Stands key (37 :: rest) ↔ Stands key rest := by
  constructor
  · intro stands
    cases stands with
    | segment same segment _ _ => exact absurd rfl (segment.head same).2
    | percent later => exact later
  · exact .percent

theorem stands_argument (key rest : List Byte) :
    Stands key (91 :: 37 :: rest) ↔ Stands key rest := by
  constructor
  · intro stands
    cases stands with
    | segment same segment _ _ => exact absurd (segment.head same).1 (by decide)
    | argument later => exact later
  · exact .argument

theorem stands_index (key rest : List Byte) (index : rest.head? ≠ some 37) :
    ¬ Stands key (91 :: rest) := by
  intro stands
  cases stands with
  | segment same segment _ _ => exact absurd (segment.head same).1 (by decide)
  | argument later => exact index rfl

theorem stands_segment (key rest : List Byte) (c : Byte) (inside : inSegment c = true)
    (plain : c ≠ 37) :
    Stands key (c :: rest) ↔ key = (c :: rest).takeWhile inSegment ∧
      Separators ((c :: rest).dropWhile inSegment) := by
  constructor
  · intro stands
    cases stands with
    | segment same segment ends next =>
        rename_i after
        have stops : after.takeWhile inSegment = [] ∧ after.dropWhile inSegment = after := by
          cases ends with
          | nil => exact ⟨rfl, rfl⟩
          | dot => exact ⟨rfl, rfl⟩
          | percent => exact absurd rfl next
          | argument => exact ⟨rfl, rfl⟩
        rw [same, List.takeWhile_append_of_pos segment.inside,
          List.dropWhile_append_of_pos segment.inside, stops.1, stops.2, List.append_nil]
        exact ⟨rfl, ends⟩
    | dot => exact absurd inside (by decide)
    | percent => exact absurd rfl plain
    | argument => exact absurd inside (by decide)
  · rintro ⟨rfl, ends⟩
    refine .segment (List.takeWhile_append_dropWhile).symm ⟨?_, ?_, ?_⟩ ends ?_
    · rw [List.takeWhile_cons_of_pos inside]
      exact List.cons_ne_nil _ _
    · intro other member
      exact List.mem_takeWhile_imp member
    · rw [List.takeWhile_cons_of_pos inside]
      intro same
      exact plain (Option.some.inj same)
    · intro same
      have stopped := List.head?_dropWhile_not inSegment (c :: rest)
      rw [same] at stopped
      exact absurd stopped (by decide)

/-! Which arguments a path has. -/

structure Parsed (current : List Byte) (args : List PathArgument) : Prop where
  separators : args = [] ↔ Separators current
  segment : ∀ key, args = [.key key] ↔ Stands key current

theorem parsed_nil : Parsed [] [] := by
  constructor
  · exact ⟨fun _ => .nil, fun _ => rfl⟩
  · intro key
    constructor
    · intro same
      cases same
    · exact fun stands => absurd stands (stands_nil key)

theorem Parsed.dot {rest : List Byte} {more : List PathArgument} (parsed : Parsed rest more) :
    Parsed (46 :: rest) more := by
  constructor
  · rw [parsed.separators]
    exact ⟨.dot, fun ends => by cases ends with | dot later => exact later⟩
  · intro key
    rw [parsed.segment, stands_dot]

theorem Parsed.percent {rest : List Byte} {more : List PathArgument} (parsed : Parsed rest more) :
    Parsed (37 :: rest) more := by
  constructor
  · rw [parsed.separators]
    exact ⟨.percent, fun ends => by cases ends with | percent later => exact later⟩
  · intro key
    rw [parsed.segment, stands_percent]

theorem Parsed.argument {rest : List Byte} {more : List PathArgument}
    (parsed : Parsed rest more) : Parsed (91 :: 37 :: rest) more := by
  constructor
  · rw [parsed.separators]
    exact ⟨.argument, fun ends => by cases ends with | argument later => exact later⟩
  · intro key
    rw [parsed.segment, stands_argument]

theorem parsed_index (rest : List Byte) (index : Nat) (more : List PathArgument)
    (opens : rest.head? ≠ some 37) : Parsed (91 :: rest) (.index index :: more) := by
  constructor
  · constructor
    · intro same
      cases same
    · intro ends
      cases ends with
      | argument => exact absurd rfl opens
  · intro key
    constructor
    · intro same
      cases same
    · exact fun stands => absurd stands (stands_index key rest opens)

theorem Parsed.key {c : Byte} {rest : List Byte} {more : List PathArgument}
    (inside : inSegment c = true) (plain : c ≠ 37)
    (parsed : Parsed ((c :: rest).dropWhile inSegment) more) :
    Parsed (c :: rest) (.key ((c :: rest).takeWhile inSegment) :: more) := by
  constructor
  · constructor
    · intro same
      cases same
    · intro ends
      cases ends with
      | dot => exact absurd inside (by decide)
      | percent => exact absurd rfl plain
      | argument => exact absurd inside (by decide)
  · intro key
    rw [stands_segment key rest c inside plain, ← parsed.separators]
    simp only [List.cons.injEq, PathArgument.key.injEq]
    exact ⟨fun same => ⟨same.1.symm, same.2⟩, fun same => ⟨same.1.symm, same.2⟩⟩

theorem Parsed.round {c : Byte} {rest : List Byte} {more : List PathArgument} (nonzero : c ≠ 0)
    (parsed : Parsed (path_round (c :: rest)).2 more) :
    Parsed (c :: rest) ((path_round (c :: rest)).1 ++ more) := by
  unfold path_round at parsed ⊢
  dsimp only at parsed ⊢
  by_cases opens : c = 91
  · subst opens
    rw [if_pos rfl] at parsed ⊢
    by_cases argument : rest.head? = Option.some 37
    · rw [if_pos argument] at parsed ⊢
      cases rest with
      | nil => cases argument
      | cons percent rest =>
          cases argument
          exact parsed.argument
    · rw [if_neg argument, List.singleton_append]
      exact parsed_index rest _ more argument
  · rw [if_neg opens] at parsed ⊢
    by_cases separator : c = 37 ∨ c = 46
    · rw [if_pos separator] at parsed ⊢
      rcases separator with rfl | rfl
      · exact parsed.percent
      · exact parsed.dot
    · rw [if_neg separator] at parsed ⊢
      rw [not_or] at separator
      have inside : inSegment c = true := by
        simp only [inSegment, Bool.and_eq_true, bne_iff_ne]
        exact ⟨⟨opens, separator.2⟩, nonzero⟩
      have clean : cstr ((c :: rest).takeWhile inSegment) = (c :: rest).takeWhile inSegment := by
        apply cstr_eq
        intro zero
        exact absurd (List.mem_takeWhile_imp zero) (by decide)
      rw [clean, List.singleton_append]
      exact parsed.key inside separator.1

theorem path_loop_parsed (fuel : Nat) (current : List Byte) (args result : List PathArgument)
    (ran : path_loop fuel current args = .ok result) :
    ∃ more, result = args ++ more ∧ Parsed current more := by
  induction fuel generalizing current args with
  | zero => cases ran
  | succ fuel ih =>
      cases current with
      | nil =>
          cases ran
          exact ⟨[], (List.append_nil _).symm, parsed_nil⟩
      | cons c rest =>
          by_cases zero : c = 0
          · subst zero
            rw [path_loop_hangs (fuel + 1) (0 :: rest) args rfl] at ran
            cases ran
          · rw [path_loop, if_neg (List.cons_ne_nil _ _)] at ran
            obtain ⟨more, same, parsed⟩ := ih _ _ ran
            exact ⟨_, by rw [same, List.append_assoc], parsed.round zero⟩

theorem makePath_parsed (name : List Byte) (args : List PathArgument)
    (made : makePath name = .ok args) : Parsed name args := by
  obtain ⟨more, same, parsed⟩ := path_loop_parsed _ name [] args made
  rw [List.nil_append] at same
  rw [same]
  exact parsed

/-! What a path leads to in a flat object. -/

/-- Only a path with one segment leads to a string. -/
def denoted (members : StringMap) : List PathArgument → List Byte
  | [.key key] => (members.lookup key).getD []
  | _ => []

theorem lookup_flat (members : StringMap) (key : List Byte) :
    (flat members).lookup key = (members.lookup key).map .string := by
  induction members with
  | nil => rfl
  | cons member rest ih =>
      rw [flat, List.map_cons, List.lookup_cons, List.lookup_cons]
      cases key == member.1 with
      | true => rfl
      | false => exact ih

theorem get_json_string_flat (members : StringMap) (name : List Byte) (args : List PathArgument)
    (made : makePath name = .ok args) :
    get_json_string (.object (flat members)) name [] = .ok (denoted members args) := by
  unfold get_json_string
  rw [made, ok_bind]
  match args with
  | [] => rfl
  | .index _ :: _ => rfl
  | [.key key] =>
      rw [resolve, lookup_flat, denoted]
      cases members.lookup key with
      | none => rfl
      | some value => rfl
  | .key key :: next :: args =>
      have nothing : denoted members (.key key :: next :: args) = [] := rfl
      rw [resolve, lookup_flat, nothing]
      cases members.lookup key with
      | none => rfl
      | some value =>
          -- A string has no parts.
          cases next with
          | index => rfl
          | key => rfl

theorem denoted_eq (members : StringMap) (name : List Byte) (args : List PathArgument)
    (parsed : Parsed name args) :
    (∀ key, Stands key name → denoted members args = (members.lookup key).getD []) ∧
      ((∀ key, ¬ Stands key name) → denoted members args = []) := by
  constructor
  · intro key stands
    rw [(parsed.segment key).mpr stands]
    rfl
  · intro unread
    match args, parsed with
    | [], _ => rfl
    | .index _ :: _, _ => rfl
    | [.key key], parsed => exact absurd ((parsed.segment key).mp rfl) (unread key)
    | .key _ :: _ :: _, _ => rfl

theorem arrives_iff (members : StringMap) (member : List Byte × List Byte) :
    Arrives members member ↔
      get_json_string (.object (flat members)) member.1 [] = .ok member.2 := by
  constructor
  · intro arrives
    obtain ⟨args, made⟩ := makePath_safe member.1 arrives.returns
    obtain ⟨segment, other⟩ := denoted_eq members member.1 args (makePath_parsed _ _ made)
    rw [get_json_string_flat members member.1 args made]
    by_cases stands : ∃ key, Stands key member.1
    · obtain ⟨key, stands⟩ := stands
      rw [segment key stands, arrives.segment key stands]
    · rw [not_exists] at stands
      rw [other stands, arrives.other stands]
  · intro got
    have returns : Safe member.1 := by
      by_contra stuck
      rw [get_json_string_stuck _ _ _ stuck] at got
      cases got
    obtain ⟨args, made⟩ := makePath_safe member.1 returns
    obtain ⟨segment, other⟩ := denoted_eq members member.1 args (makePath_parsed _ _ made)
    rw [get_json_string_flat members member.1 args made] at got
    have same := Except.ok.inj got
    constructor
    · exact returns
    · intro key stands
      rw [← segment key stands, same]
    · intro empty
      rw [← other empty, same]

/-! The maps. -/

theorem lookup_entry {α : Type} (name : List Byte) (entry : List Byte × α)
    (rest : List (List Byte × α)) :
    (entry :: rest).lookup name = if name = entry.1 then some entry.2 else rest.lookup name := by
  rw [List.lookup_cons]
  by_cases same : name = entry.1
  · rw [if_pos same, beq_iff_eq.mpr same]
  · rw [if_neg same, beq_eq_false_iff_ne.mpr same]

theorem lookup_assign {α : Type} (name other : List Byte) (value : α)
    (map : List (List Byte × α)) :
    (assign name value map).lookup other =
      if other = name then some value else map.lookup other := by
  induction map with
  | nil => exact lookup_entry other (name, value) []
  | cons entry rest ih =>
      rw [assign]
      by_cases here : entry.1 = name
      · rw [if_pos here, lookup_entry, lookup_entry, here]
        by_cases same : other = name
        · rw [if_pos same, if_pos same]
        · rw [if_neg same, if_neg same, if_neg same]
      · rw [if_neg here, lookup_entry, lookup_entry, ih]
        by_cases first : other = entry.1
        · have apart : other ≠ name := fun same => here (first.symm.trans same)
          rw [if_pos first, if_neg apart, if_pos first]
        · rw [if_neg first, if_neg first]

theorem load_members_lookup (res : Value) (names : List (List Byte)) (map result : StringMap)
    (loaded : load_members res names map = .ok result) :
    ∀ name, (name ∈ names → ∃ value, get_json_string res name [] = .ok value ∧
        result.lookup name = some value) ∧
      (name ∉ names → result.lookup name = map.lookup name) := by
  induction names generalizing map with
  | nil =>
      cases loaded
      intro name
      exact ⟨fun member => absurd member List.not_mem_nil, fun _ => rfl⟩
  | cons iter later ih =>
      obtain ⟨value, got, rest⟩ := bind_ok loaded
      intro name
      obtain ⟨inside, outside⟩ := ih _ rest name
      by_cases further : name ∈ later
      · exact ⟨fun _ => inside further,
          fun absent => absurd (List.mem_cons_of_mem _ further) absent⟩
      · rw [outside further, lookup_assign]
        by_cases same : name = iter
        · subst same
          exact ⟨fun _ => ⟨value, got, if_pos rfl⟩, fun absent => absurd List.mem_cons_self absent⟩
        · rw [if_neg same]
          refine ⟨fun member => ?_, fun _ => rfl⟩
          rcases List.mem_cons.mp member with here | there
          · exact absurd here same
          · exact absurd there further

theorem flat_names (members : StringMap) :
    (flat members).map Prod.fst = members.map Prod.fst := by
  rw [flat, List.map_map]
  rfl

theorem lookup_member (members : StringMap) (distinct : (members.map Prod.fst).Nodup)
    (member : List Byte × List Byte) (inside : member ∈ members) :
    members.lookup member.1 = some member.2 := by
  induction members with
  | nil => cases inside
  | cons first rest ih =>
      rw [List.map_cons, List.nodup_cons] at distinct
      rw [lookup_entry]
      rcases List.mem_cons.mp inside with rfl | later
      · exact if_pos rfl
      · have apart : member.1 ≠ first.1 := fun same =>
          distinct.1 (same ▸ List.mem_map_of_mem later)
        rw [if_neg apart]
        exact ih distinct.2 later

theorem lookup_absent (members : StringMap) (name : List Byte)
    (absent : name ∉ members.map Prod.fst) : members.lookup name = none := by
  rw [List.lookup_eq_none_iff]
  intro member inside
  rw [bne_iff_ne]
  rintro rfl
  exact absent (List.mem_map_of_mem inside)

theorem load_flat_iff (members : StringMap) (distinct : (members.map Prod.fst).Nodup) :
    (∃ map, load_members (.object (flat members)) ((flat members).map Prod.fst) [] = .ok map ∧
        ∀ name, map.lookup name = members.lookup name) ↔
      ∀ member ∈ members, Arrives members member := by
  rw [flat_names]
  constructor
  · rintro ⟨map, loaded, same⟩ member inside
    obtain ⟨value, got, found⟩ := (load_members_lookup _ _ _ _ loaded member.1).1
      (List.mem_map_of_mem inside)
    rw [same, lookup_member members distinct member inside, Option.some.injEq] at found
    rw [arrives_iff, got, found]
  · intro arrive
    have safe : ∀ name ∈ members.map Prod.fst, Safe name := by
      rw [List.forall_mem_map]
      exact fun member inside => (arrive member inside).returns
    obtain ⟨map, loaded⟩ := (load_members_iff (.object (flat members)) _ []).mpr safe
    refine ⟨map, loaded, ?_⟩
    intro name
    obtain ⟨inside, outside⟩ := load_members_lookup _ _ _ _ loaded name
    by_cases named : name ∈ members.map Prod.fst
    · obtain ⟨value, got, found⟩ := inside named
      obtain ⟨member, here, rfl⟩ := List.mem_map.mp named
      rw [(arrives_iff members member).mp (arrive member here)] at got
      rw [found, ← Except.ok.inj got, lookup_member members distinct member here]
    · rw [outside named, lookup_absent members name named]
      rfl

/-! The two texts. -/

inductive Part where
  | deviceCxt
  | request
  deriving DecidableEq, Repr

def Part.text : Part → Texts → List Byte
  | .deviceCxt, texts => texts.deviceCxt
  | .request, texts => texts.request

def Part.map : Part → Store → StringMap
  | .deviceCxt, store => store.deviceCxt
  | .request, store => store.request

def Part.other : Part → Part
  | .deviceCxt => .request
  | .request => .deviceCxt

section Parts

variable {double : List Byte → Option (List Byte)}

theorem load_deviceCxt_request (deviceCxt : List Byte) (store after : Store)
    (loaded : load_deviceCxt double deviceCxt store = .ok after) :
    after.request = store.request := by
  unfold load_deviceCxt at loaded
  split at loaded
  · cases loaded
    rfl
  · obtain ⟨res, _, filled⟩ := bind_ok loaded
    split at filled
    · obtain ⟨map, _, appid⟩ := bind_ok filled
      obtain ⟨_, _, userid⟩ := bind_ok appid
      obtain ⟨_, _, version⟩ := bind_ok userid
      obtain ⟨_, _, built⟩ := bind_ok version
      cases built
      rfl
    · cases filled
      rfl

theorem load_request_deviceCxt (requestText : List Byte) (store after : Store)
    (loaded : load_request double requestText store = .ok after) :
    after.deviceCxt = store.deviceCxt := by
  unfold load_request at loaded
  split at loaded
  · cases loaded
    rfl
  · obtain ⟨res, _, filled⟩ := bind_ok loaded
    split at filled
    · obtain ⟨map, _, built⟩ := bind_ok filled
      cases built
      rfl
    · cases filled
      rfl

theorem parsed_some {document : List Byte} {members : List (List Byte × Value)}
    (parsed : parse double document = .ok (some (.object members))) : document ≠ [] := by
  rintro rfl
  have nothing : parse double [] = .ok none := rfl
  rw [nothing] at parsed
  cases parsed

theorem load_deviceCxt_iff_members (deviceCxt : List Byte) (members : List (List Byte × Value))
    (parsed : parse double deviceCxt = .ok (some (.object members))) (store : Store)
    (holds : StringMap → Prop) :
    (∃ after, load_deviceCxt double deviceCxt store = .ok after ∧ holds after.deviceCxt) ↔
      ∃ map, load_members (.object members) (members.map Prod.fst) store.deviceCxt = .ok map ∧
        holds map := by
  unfold load_deviceCxt
  rw [if_neg (parsed_some parsed), parsed, ok_bind]
  constructor
  · rintro ⟨after, loaded, fine⟩
    obtain ⟨map, filled, appid⟩ := bind_ok loaded
    obtain ⟨_, _, userid⟩ := bind_ok appid
    obtain ⟨_, _, version⟩ := bind_ok userid
    obtain ⟨_, _, built⟩ := bind_ok version
    cases built
    exact ⟨map, filled, fine⟩
  · rintro ⟨map, filled, fine⟩
    obtain ⟨appid, userid, version, first, second, third⟩ := fields_return (.object members)
    dsimp only
    rw [filled, ok_bind, first, ok_bind, second, ok_bind, third, ok_bind]
    exact ⟨_, rfl, fine⟩

theorem load_request_iff_members (requestText : List Byte) (members : List (List Byte × Value))
    (parsed : parse double requestText = .ok (some (.object members))) (store : Store)
    (holds : StringMap → Prop) :
    (∃ after, load_request double requestText store = .ok after ∧ holds after.request) ↔
      ∃ map, load_members (.object members) (members.map Prod.fst) store.request = .ok map ∧
        holds map := by
  unfold load_request
  rw [if_neg (parsed_some parsed), parsed, ok_bind]
  constructor
  · rintro ⟨after, loaded, fine⟩
    obtain ⟨map, filled, built⟩ := bind_ok loaded
    cases built
    exact ⟨map, filled, fine⟩
  · rintro ⟨map, filled, fine⟩
    dsimp only
    rw [filled, ok_bind]
    exact ⟨_, rfl, fine⟩

theorem loads_arrive_iff (part : Part) (parameters : Texts) (members : StringMap)
    (parsed : parse double (part.text parameters) = .ok (some (.object (flat members))))
    (distinct : (members.map Prod.fst).Nodup) :
    (∃ middle last, load_deviceCxt double parameters.deviceCxt ⟨[], [], [], []⟩ = .ok middle ∧
        load_request double parameters.request middle = .ok last ∧
        ∀ name, (part.map last).lookup name = members.lookup name) ↔
      Gentle double (part.other.text parameters) ∧
        ∀ member ∈ members, Arrives members member := by
  rw [← load_flat_iff members distinct]
  cases part with
  | deviceCxt =>
      rw [← load_deviceCxt_iff_members _ _ parsed ⟨[], [], [], []⟩
        fun map => ∀ name, map.lookup name = members.lookup name]
      constructor
      · rintro ⟨middle, last, first, second, same⟩
        refine ⟨(load_request_iff _ middle).mp ⟨last, second⟩, middle, first, ?_⟩
        rw [← load_request_deviceCxt _ middle last second]
        exact same
      · rintro ⟨gentle, middle, first, same⟩
        obtain ⟨last, second⟩ := (load_request_iff _ middle).mpr gentle
        refine ⟨middle, last, first, second, ?_⟩
        rw [← load_request_deviceCxt _ middle last second] at same
        exact same
  | request =>
      constructor
      · rintro ⟨middle, last, first, second, same⟩
        have empty : middle.request = [] := load_deviceCxt_request _ _ middle first
        obtain ⟨map, filled, fine⟩ := (load_request_iff_members _ _ parsed middle
          fun map => ∀ name, map.lookup name = members.lookup name).mp ⟨last, second, same⟩
        rw [empty] at filled
        exact ⟨(load_deviceCxt_iff _ _).mp ⟨middle, first⟩, map, filled, fine⟩
      · rintro ⟨gentle, map, filled, fine⟩
        obtain ⟨middle, first⟩ := (load_deviceCxt_iff _ ⟨[], [], [], []⟩).mpr gentle
        have empty : middle.request = [] := load_deviceCxt_request _ _ middle first
        rw [← empty] at filled
        obtain ⟨last, second, same⟩ := (load_request_iff_members _ _ parsed middle
          fun map => ∀ name, map.lookup name = members.lookup name).mpr ⟨map, filled, fine⟩
        exact ⟨middle, last, first, second, same⟩

/-- The map of a flat text is the text's members exactly when each of them arrives and the
other text does not stop `parse_worker`. -/
theorem members_arrive_iff (part : Part) (source : REQUEST_SOURCE) (request : List Byte)
    (members : StringMap)
    (parsed : parse double (part.text (texts source (decode_request request))) =
      .ok (some (.object (flat members))))
    (distinct : (members.map Prod.fst).Nodup) :
    (∃ worker, parse_worker double (newWorker source request) = .ok worker ∧
        ∀ name, (part.map worker.store).lookup name = members.lookup name) ↔
      Gentle double (part.other.text (texts source (decode_request request))) ∧
        ∀ member ∈ members, Arrives members member := by
  rw [← loads_arrive_iff part _ members parsed distinct]
  exact parse_worker_store source request fun store =>
    ∀ name, (part.map store).lookup name = members.lookup name

end Parts

/-- A plain name, and one that is a plain name between dots. -/
theorem members_arrive_dots :
    (∃ worker, parse_worker some (newWorker .DEFAULT_SOURCE
        (text "request=\x7b\"q\":\"hi\",\".q.\":\"hi\"\x7d")) = .ok worker ∧
      ∀ name, (Part.request.map worker.store).lookup name =
        [(text "q", text "hi"), (text ".q.", text "hi")].lookup name) ↔
      Gentle some (Part.request.other.text (texts .DEFAULT_SOURCE (decode_request
        (text "request=\x7b\"q\":\"hi\",\".q.\":\"hi\"\x7d")))) ∧
      ∀ member ∈ [(text "q", text "hi"), (text ".q.", text "hi")],
        Arrives [(text "q", text "hi"), (text ".q.", text "hi")] member :=
  members_arrive_iff .request .DEFAULT_SOURCE _ _ (parse_flat (by decide +kernel)) (by decide)

/-- A name with a dot leads from one string into another, where there is nothing. -/
theorem dotted_name_lost :
    parse some (Part.request.text (texts .DEFAULT_SOURCE (decode_request
        (text "request=\x7b\"a.b\":\"1\"\x7d")))) =
        .ok (some (.object (flat [(text "a.b", text "1")]))) ∧
      ¬ ∃ worker, parse_worker some (newWorker .DEFAULT_SOURCE
          (text "request=\x7b\"a.b\":\"1\"\x7d")) = .ok worker ∧
        ∀ name, (Part.request.map worker.store).lookup name =
          [(text "a.b", text "1")].lookup name := by
  constructor
  · exact parse_flat (by decide +kernel)
  · rintro ⟨worker, returns, same⟩
    have result : parse_worker some (newWorker .DEFAULT_SOURCE
        (text "request=\x7b\"a.b\":\"1\"\x7d")) = .ok ⟨.DEFAULT_SOURCE,
          text "request=\x7b\"a.b\":\"1\"\x7d", [], ⟨[], [(text "a.b", [])], [], []⟩, false⟩ := by
      decide +kernel
    rw [result, Except.ok.injEq] at returns
    have lost := same (text "a.b")
    rw [← returns] at lost
    exact absurd lost (by decide +kernel)

end AsrServer.MemberArrival
