import AsrServer.ParseWorker
import AsrServer.JsonNesting
import AsrServer.JsonPath

/-!
The whole of `Worker_Loader::parse_worker`: what it decodes goes through the JSON reader
into the maps of the worker's store, each member looked up by its name as a path. It has
one way to return, with 0; the reader may throw, and the loop over a path or the one over
the line breaks of the log text might not end.
-/

namespace AsrServer.WorkerStore

open Bytes UrlCode ParseWorker JsonReader JsonNesting JsonPath

abbrev StringMap := List (List Byte × List Byte)

structure Store where
  deviceCxt : StringMap
  request : StringMap
  appid : List Byte
  userid : List Byte
  deriving DecidableEq, Repr

structure Worker where
  source : REQUEST_SOURCE
  request : List Byte
  request_type_str : List Byte
  store : Store
  force_query : Bool
  deriving DecidableEq, Repr

def newWorker (source : REQUEST_SOURCE) (request : List Byte) : Worker where
  source := source
  request := request
  request_type_str := []
  store := ⟨[], [], [], []⟩
  force_query := false

def replace_loop (lst rst : List Byte) : Nat → List Byte → Except Fault (List Byte)
  | 0, _ => .error .endless
  | fuel + 1, str =>
      match find str lst with
      | none => .ok str
      | some pos => replace_loop lst rst fuel (str.take pos ++ rst ++ str.drop (pos + lst.length))

/-- `for` every name: `map[*iter] = get_json_string(res, *iter)`. -/
def load_members (res : Value) : List (List Byte) → StringMap → Except Fault StringMap
  | [], map => .ok map
  | iter :: later, map => do
      let value ← get_json_string res iter []
      load_members res later (assign iter value map)

section Load

variable (double : List Byte → Option (List Byte))

def load_deviceCxt (deviceCxt : List Byte) (store : Store) : Except Fault Store := do
  if deviceCxt = [] then return store
  match ← parse double deviceCxt with
  | some (.object members) =>
      let map ← load_members (.object members) (members.map Prod.fst) store.deviceCxt
      let appid ← get_json_string (.object members) (text "appId") []
      let userid ← get_json_string (.object members) (text "userId") []
      let _version ← get_json_string (.object members) (text "appVersion") []
      return { store with deviceCxt := map, appid := appid, userid := userid }
  | _ => return store

def load_request (requestText : List Byte) (store : Store) : Except Fault Store := do
  if requestText = [] then return store
  match ← parse double requestText with
  | some (.object members) =>
      let map ← load_members (.object members) (members.map Prod.fst) store.request
      return { store with request := map }
  | _ => return store

def parse_worker (worker : Worker) : Except Fault Worker := do
  let request := decode_request worker.request
  -- The text for the log is built where something has been decoded.
  if url_utf8_decode worker.request (toInt worker.request.length) 2048 ≠ [] then
    let _log ← replace_loop (text "\n") (text " ") (request.length + 1) request
  let parameters := texts worker.source request
  let store ← load_deviceCxt double parameters.deviceCxt worker.store
  let store ← load_request double parameters.request store
  return {
    source := worker.source
    request := request
    request_type_str :=
      if parameters.type = [] then worker.request_type_str else parameters.type
    store := store
    force_query := ParseWorker.force_query worker.source request }

end Load

/-! The parts that always return. -/

theorem replace_found (lst rst : List Byte) (fuel : Nat) (str left right : List Byte)
    (found : str.dropInfix? lst = some (left, right)) :
    replace_loop lst rst (fuel + 1) str = replace_loop lst rst fuel (left ++ rst ++ right) := by
  have split := Occurrence.split_text _ _ _ _ found
  have front : str.take left.length = left := by
    rw [split, List.append_assoc, List.take_left]
  have back : str.drop (left.length + lst.length) = right := by
    rw [split, ← List.length_append, List.drop_left]
  rw [replace_loop, find, found]
  simp only [front, back]

theorem replace_loop_ends (fuel : Nat) (str : List Byte) (enough : str.count 10 < fuel) :
    ∃ result, replace_loop (text "\n") (text " ") fuel str = .ok result := by
  induction fuel generalizing str with
  | zero => exact absurd enough (Nat.not_lt_zero _)
  | succ fuel ih =>
      cases found : str.dropInfix? (text "\n") with
      | none => exact ⟨str, by rw [replace_loop, find, found]⟩
      | some parts =>
          rw [replace_found _ _ fuel str parts.1 parts.2 found]
          apply ih
          have one : (text "\n").count (10 : Byte) = 1 := by decide
          have blank : (text " ").count (10 : Byte) = 0 := by decide
          rw [Occurrence.split_text _ _ _ _ found] at enough
          simp only [List.count_append] at enough ⊢
          omega

theorem load_members_iff (res : Value) (names : List (List Byte)) (map : StringMap) :
    (∃ result, load_members res names map = .ok result) ↔ ∀ name ∈ names, Safe name := by
  induction names generalizing map with
  | nil => simp [load_members]
  | cons iter later ih =>
      rw [List.forall_mem_cons]
      by_cases fine : Safe iter
      · obtain ⟨value, got⟩ := get_json_string_safe res iter [] fine
        rw [← ih (assign iter value map), load_members, got]
        exact ⟨fun returns => ⟨fine, returns⟩, fun both => both.2⟩
      · rw [load_members, get_json_string_stuck res iter [] fine]
        constructor
        · rintro ⟨result, returns⟩
          cases returns
        · exact fun both => absurd both.1 fine

/-- Nothing in the text keeps `parse_worker` from returning: it is not nested too deep, and
no name in it has a zero byte other than behind an index that is open. -/
def Gentle (double : List Byte → Option (List Byte)) (document : List Byte) : Prop :=
  ¬ TooDeep double document ∧ ∀ members, parse double document = .ok (some (.object members)) →
    ∀ member ∈ members, Safe member.1

theorem ok_bind {α β : Type} (first : α) (next : α → Except Fault β) :
    (Except.ok first >>= next) = next first := rfl

theorem bind_ok {α β : Type} {first : Except Fault α} {next : α → Except Fault β} {result : β}
    (ran : first >>= next = .ok result) :
    ∃ middle, first = .ok middle ∧ next middle = .ok result := by
  cases first with
  | error fault => cases ran
  | ok middle => exact ⟨middle, rfl, ran⟩

section Returns

variable {double : List Byte → Option (List Byte)}

theorem gentle_nil : Gentle double [] := by
  have result : parse double [] = .ok none := rfl
  constructor
  · rw [← parse_throws_iff, result]
    intro same
    cases same
  · intro members same
    rw [result] at same
    cases same

theorem returns_iff (document : List Byte) (store : Store)
    (load : List (List Byte × Value) → Except Fault Store)
    (loads : ∀ members, (∃ after, load members = .ok after) ↔ ∀ member ∈ members, Safe member.1) :
    (∃ after, (parse double document >>= fun res =>
        match res with
        | some (.object members) => load members
        | _ => Except.ok store) = .ok after) ↔ Gentle double document := by
  have ends := parse_ends double document
  unfold Gentle
  rw [← parse_throws_iff]
  match parsed : parse double document with
  | .error .endless => exact absurd parsed ends
  | .error .exception =>
      constructor
      · rintro ⟨after, returns⟩
        cases returns
      · exact fun gentle => absurd rfl gentle.1
  | .ok (some (.object members)) =>
      change (∃ after, load members = .ok after) ↔ _
      rw [loads]
      constructor
      · intro fine
        constructor
        · intro same
          cases same
        · intro others same
          cases same
          exact fine
      · exact fun gentle => gentle.2 members rfl
  | .ok none | .ok (some .null) | .ok (some (.int _)) | .ok (some (.uint _)) |
      .ok (some (.real _)) | .ok (some (.string _)) | .ok (some (.boolean _)) |
      .ok (some (.array _)) =>
      constructor
      · intro _
        constructor
        · intro same
          cases same
        · intro members same
          cases same
      · exact fun _ => ⟨store, rfl⟩

/-- The members are looked up by name; what is done with the map then returns. -/
theorem names_return_iff (members : List (List Byte × Value)) (map : StringMap)
    (finish : StringMap → Except Fault Store) (finishes : ∀ map, ∃ after, finish map = .ok after) :
    (∃ after, (load_members (.object members) (members.map Prod.fst) map >>= finish) =
        .ok after) ↔ ∀ member ∈ members, Safe member.1 := by
  have names := load_members_iff (.object members) (members.map Prod.fst) map
  rw [List.forall_mem_map] at names
  rw [← names]
  constructor
  · rintro ⟨after, returns⟩
    obtain ⟨filled, loaded, _⟩ := bind_ok returns
    exact ⟨filled, loaded⟩
  · rintro ⟨filled, loaded⟩
    rw [loaded, ok_bind]
    exact finishes filled

theorem fields_return (res : Value) : ∃ appid userid version,
    get_json_string res (text "appId") [] = .ok appid ∧
      get_json_string res (text "userId") [] = .ok userid ∧
      get_json_string res (text "appVersion") [] = .ok version := by
  obtain ⟨appid, first⟩ := get_json_string_safe res (text "appId") []
    ((safe_iff_Safe _).mp (by decide))
  obtain ⟨userid, second⟩ := get_json_string_safe res (text "userId") []
    ((safe_iff_Safe _).mp (by decide))
  obtain ⟨version, third⟩ := get_json_string_safe res (text "appVersion") []
    ((safe_iff_Safe _).mp (by decide))
  exact ⟨appid, userid, version, first, second, third⟩

theorem load_deviceCxt_iff (deviceCxt : List Byte) (store : Store) :
    (∃ after, load_deviceCxt double deviceCxt store = .ok after) ↔ Gentle double deviceCxt := by
  by_cases empty : deviceCxt = []
  · subst empty
    exact ⟨fun _ => gentle_nil, fun _ => ⟨store, rfl⟩⟩
  · unfold load_deviceCxt
    rw [if_neg empty]
    apply returns_iff deviceCxt store
    intro members
    obtain ⟨appid, userid, version, first, second, third⟩ := fields_return (.object members)
    rw [first, second, third]
    exact names_return_iff members store.deviceCxt _ fun _ => ⟨_, rfl⟩

theorem load_request_iff (requestText : List Byte) (store : Store) :
    (∃ after, load_request double requestText store = .ok after) ↔ Gentle double requestText := by
  by_cases empty : requestText = []
  · subst empty
    exact ⟨fun _ => gentle_nil, fun _ => ⟨store, rfl⟩⟩
  · unfold load_request
    rw [if_neg empty]
    apply returns_iff requestText store
    intro members
    exact names_return_iff members store.request _ fun _ => ⟨_, rfl⟩

/-- `parse_worker` is the two loads, one after the other. -/
theorem parse_worker_ok (worker after : Worker) :
    parse_worker double worker = .ok after ↔
      ∃ middle last, load_deviceCxt double
          (texts worker.source (decode_request worker.request)).deviceCxt worker.store =
            .ok middle ∧
        load_request double (texts worker.source (decode_request worker.request)).request
          middle = .ok last ∧
        after = ⟨worker.source, decode_request worker.request,
          if (texts worker.source (decode_request worker.request)).type = [] then
            worker.request_type_str
          else (texts worker.source (decode_request worker.request)).type,
          last, ParseWorker.force_query worker.source (decode_request worker.request)⟩ := by
  obtain ⟨log, built⟩ := replace_loop_ends ((decode_request worker.request).length + 1)
    (decode_request worker.request) (Nat.lt_succ_of_le List.count_le_length)
  unfold parse_worker
  dsimp only
  rw [built]
  generalize decode_request worker.request = request
  generalize texts worker.source request = parameters
  generalize url_utf8_decode worker.request (toInt worker.request.length) 2048 = decoded
  -- With or without the log text, the loads are the same.
  rw [ok_bind, ite_self]
  constructor
  · intro returns
    obtain ⟨middle, first, later⟩ := bind_ok returns
    obtain ⟨last, second, same⟩ := bind_ok later
    exact ⟨middle, last, first, second, (Except.ok.inj same).symm⟩
  · rintro ⟨middle, last, first, second, rfl⟩
    rw [first, ok_bind, second, ok_bind]
    rfl

theorem parse_worker_store (source : REQUEST_SOURCE) (request : List Byte)
    (holds : Store → Prop) :
    (∃ after, parse_worker double (newWorker source request) = .ok after ∧ holds after.store) ↔
      ∃ middle last, load_deviceCxt double (texts source (decode_request request)).deviceCxt
          ⟨[], [], [], []⟩ = .ok middle ∧
        load_request double (texts source (decode_request request)).request middle = .ok last ∧
        holds last := by
  constructor
  · rintro ⟨after, returns, fine⟩
    obtain ⟨middle, last, first, second, same⟩ := (parse_worker_ok _ after).mp returns
    rw [same] at fine
    exact ⟨middle, last, first, second, fine⟩
  · rintro ⟨middle, last, first, second, fine⟩
    exact ⟨_, (parse_worker_ok _ _).mpr ⟨middle, last, first, second, rfl⟩, fine⟩

/-- `parse_worker` returns exactly when neither text stops it. -/
theorem parse_worker_returns_iff (worker : Worker) :
    (∃ after, parse_worker double worker = .ok after) ↔
      Gentle double (texts worker.source (decode_request worker.request)).deviceCxt ∧
        Gentle double (texts worker.source (decode_request worker.request)).request := by
  rw [← load_deviceCxt_iff _ worker.store]
  constructor
  · rintro ⟨after, returns⟩
    obtain ⟨middle, last, first, second, _⟩ := (parse_worker_ok worker after).mp returns
    exact ⟨⟨middle, first⟩, (load_request_iff _ middle).mp ⟨last, second⟩⟩
  · rintro ⟨⟨middle, first⟩, gentle⟩
    obtain ⟨last, second⟩ := (load_request_iff _ middle).mpr gentle
    exact ⟨_, (parse_worker_ok worker _).mpr ⟨middle, last, first, second, rfl⟩⟩

end Returns

/-- Brackets up to the limit, and a name with a zero byte. -/
theorem parse_worker_stops :
    parse_worker some (newWorker .DEFAULT_SOURCE (text "request=" ++ List.replicate 1000 91)) =
        .error .exception ∧
      parse_worker some (newWorker .DEFAULT_SOURCE (text "request=\x7b\"\\u0000\":1\x7d")) =
        .error .endless := by
  constructor
  · decide +kernel
  · decide +kernel

end AsrServer.WorkerStore
