import AsrServer.FormParameters
import AsrServer.JsonDocument
import AsrServer.MemberArrival
import AsrServer.MessageBoundaries

/-!
The way of a request from the values a client sends to the maps of the worker that serves
it: the values go into a form, the form is the body of a message, the messages go out one
behind the other and arrive in pieces, `recv_request` cuts them apart again, and
`parse_worker` reads the form and the JSON objects in it. Nothing is lost and nothing is
mixed up, for as many requests as are sent on the connection.
-/

namespace AsrServer.RequestArrival

open Bytes UrlCode ReadPath RequestHeader MessageStream MessageBoundaries ParseWorker JsonReader
  JsonNesting JsonPath JsonDocument WorkerStore MemberArrival

variable {double : List Byte → Option (List Byte)}

/-- A text is left out, or it is a document of a flat object whose members arrive. -/
inductive Described (double : List Byte → Option (List Byte)) :
    List Byte → StringMap → Prop where
  | missing : Described double [] []
  | object {calls : Nat} {document : List Byte} {members : StringMap}
      (padded : Padded double calls document (.object (flat members)))
      (few : calls ≤ stackLimit_g) (arrive : ∀ member ∈ members, Arrives members member) :
      Described double document members

/-- A request whose parts all arrive: the header is accepted with the length of the form,
the values survive the form, and the two texts describe the maps. -/
structure Request (double : List Byte → Option (List Byte)) (before : Byte) where
  message : Message
  sent : FormParameters.Sent
  deviceCxt : StringMap
  request : StringMap
  body : message.body = FormParameters.body sent.values
  accepted : verdict (GetInfo before) message.header = some (message.body.length : Int)
  short : message.header.length + 4 < 2 ^ 31
  kept : FormParameters.Kept sent.values
  describesDeviceCxt : Described double sent.values.deviceCxt deviceCxt
  describesRequest : Described double sent.values.request request

structure Holds {before : Byte} (made : Request double before) (worker : Worker) : Prop where
  type : worker.request_type_str = made.sent.values.type
  deviceCxt : ∀ name, worker.store.deviceCxt.lookup name = made.deviceCxt.lookup name
  request : ∀ name, worker.store.request.lookup name = made.request.lookup name
  appid : worker.store.appid = (made.deviceCxt.lookup (text "appId")).getD []
  userid : worker.store.userid = (made.deviceCxt.lookup (text "userId")).getD []

/-! The texts. -/

theorem number_plain (number : Number) (members : List (List Byte × Value)) :
    number.value double ≠ some (.object members) := by
  unfold Number.value
  split
  · split
    · simp
    · split <;> simp
  · simp

theorem padded_distinct {calls : Nat} {document : List Byte} {members : StringMap}
    (padded : Padded double calls document (.object (flat members))) :
    (members.map Prod.fst).Nodup := by
  rw [← flat_names]
  generalize flat members = entries at padded
  cases padded with
  | between _ element _ =>
      cases element with
      | number number reads => exact absurd reads (number_plain number entries)
      | emptyObject => exact List.nodup_nil
      | object => exact gathered_distinct _ [] List.nodup_nil

theorem padded_few {calls : Nat} {document : List Byte} {value : Value}
    (padded : Padded double calls document value) (few : calls ≤ stackLimit_g) :
    parse double document = .ok (some value) := by
  obtain ⟨rest, read⟩ := padded_parsed padded
  rw [read, outcome, if_pos few]
  rfl

/-! The loads. -/

theorem deviceCxt_described {document : List Byte} {members : StringMap}
    (described : Described double document members) :
    ∃ after, load_deviceCxt double document ⟨[], [], [], []⟩ = .ok after ∧
      (∀ name, after.deviceCxt.lookup name = members.lookup name) ∧ after.request = [] ∧
      after.appid = (members.lookup (text "appId")).getD [] ∧
      after.userid = (members.lookup (text "userId")).getD [] := by
  cases described with
  | missing => exact ⟨_, rfl, fun _ => rfl, rfl, rfl, rfl⟩
  | object padded few arrive =>
      have parsed := padded_few padded few
      obtain ⟨map, loaded, same⟩ := (load_flat_iff members (padded_distinct padded)).mpr arrive
      have field (name : List Byte) (found : makePath name = .ok [.key name]) :=
        get_json_string_flat members name _ found
      unfold load_deviceCxt
      rw [if_neg (parsed_some parsed), parsed, ok_bind]
      dsimp only
      rw [loaded, ok_bind, field (text "appId") rfl, ok_bind, field (text "userId") rfl, ok_bind,
        field (text "appVersion") rfl, ok_bind]
      exact ⟨_, rfl, same, rfl, rfl, rfl⟩

theorem request_described {document : List Byte} {members : StringMap} {store : Store}
    (described : Described double document members) (empty : store.request = []) :
    ∃ map, load_request double document store = .ok { store with request := map } ∧
      ∀ name, map.lookup name = members.lookup name := by
  cases described with
  | missing => exact ⟨[], by rw [← empty]; rfl, fun _ => rfl⟩
  | object padded few arrive =>
      have parsed := padded_few padded few
      obtain ⟨map, loaded, same⟩ := (load_flat_iff members (padded_distinct padded)).mpr arrive
      refine ⟨map, ?_, same⟩
      unfold load_request
      rw [if_neg (parsed_some parsed), parsed, ok_bind, empty]
      dsimp only
      rw [loaded, ok_bind]
      rfl

/-! The worker. -/

variable {before : Byte}

theorem worker_holds (made : Request double before) (source : REQUEST_SOURCE) :
    ∃ worker, parse_worker double (newWorker source made.message.body) = .ok worker ∧
      Holds made worker := by
  have values : texts source (decode_request made.message.body) = made.sent.values := by
    rw [made.body]
    exact (FormParameters.received_iff source made.sent).mpr made.kept
  obtain ⟨middle, first, device, requests, appid, userid⟩ :=
    deviceCxt_described made.describesDeviceCxt
  obtain ⟨map, second, request⟩ := request_described made.describesRequest requests
  rw [← values] at first second
  refine ⟨_, (parse_worker_ok (newWorker source made.message.body) _).mpr
    ⟨middle, { middle with request := map }, first, second, rfl⟩, ?_, device, request, appid,
    userid⟩
  change (if (texts source (decode_request made.message.body)).type = [] then [] else
    (texts source (decode_request made.message.body)).type) = _
  rw [values]
  split
  · rename_i empty
    exact empty.symm
  · rfl

theorem workers_hold (requests : List (Request double before)) (source : REQUEST_SOURCE) :
    ∃ workers, (requests.map fun made => made.message.body).mapM
        (fun body => parse_worker double (newWorker source body)) = .ok workers ∧
      List.Forall₂ Holds requests workers := by
  induction requests with
  | nil => exact ⟨[], rfl, .nil⟩
  | cons made rest ih =>
      obtain ⟨worker, first, holds⟩ := worker_holds made source
      obtain ⟨workers, later, all⟩ := ih
      refine ⟨worker :: workers, ?_, .cons holds all⟩
      rw [List.map_cons, List.mapM_cons, first, ok_bind, later]
      rfl

/-! The connection. -/

/-- The requests are cut apart again, however the bytes arrive. -/
theorem requests_submitted (requests : List (Request double before)) (plan : List Nat)
    (count : Nat) (enough : requests.length ≤ count)
    (flowing : (Conn.fresh (stream (requests.map Request.message)) plan).Flowing) :
    submittedRequests (calls (GetInfo before) count
        (Conn.fresh (stream (requests.map Request.message)) plan)) =
      requests.map fun made => made.message.body := by
  obtain ⟨more, rfl⟩ := Nat.exists_eq_add_of_le enough
  have ints : ∀ header length, GetInfo before header = some length → length < 2 ^ 31 :=
    fun header length accepted => (GetInfo_int before header length accepted).2
  have here := at_start (requests.map Request.message) plan flowing
  obtain ⟨early, last, run, there, requests_eq, _⟩ := passed_run (GetInfo before) ints
    (requests.map Request.message) [] _ more (by rwa [List.append_nil])
    (by
      simp only [List.mem_map, forall_exists_index, and_imp, forall_apply_eq_imp_iff₂]
      exact fun made _ => made.short)
    (by
      simp only [List.mem_map, forall_exists_index, and_imp, forall_apply_eq_imp_iff₂]
      intro made _
      rw [Passed, made.accepted])
  obtain ⟨nothing, _⟩ := missing_run (GetInfo before) more last there.clean
    (by rw [there.pending]; exact nothing_missing)
  rw [List.length_map] at run
  rw [run, submitted_append, nothing, List.append_nil, requests_eq]
  unfold acceptedBodies
  rw [List.filter_eq_self.mpr, List.map_map]
  · rfl
  · simp only [List.mem_map, forall_exists_index, and_imp, forall_apply_eq_imp_iff₂]
    intro made _
    rw [made.accepted]
    rfl

/-- Every request that is sent is held by a worker of its own, in the order of sending. -/
theorem requests_arrive (requests : List (Request double before)) (plan : List Nat)
    (count : Nat) (enough : requests.length ≤ count)
    (flowing : (Conn.fresh (stream (requests.map Request.message)) plan).Flowing)
    (source : REQUEST_SOURCE) :
    ∃ workers, (submittedRequests (calls (GetInfo before) count
          (Conn.fresh (stream (requests.map Request.message)) plan))).mapM
        (fun body => parse_worker double (newWorker source body)) = .ok workers ∧
      List.Forall₂ Holds requests workers := by
  rw [requests_submitted requests plan count enough flowing]
  exact workers_hold requests source

def sampleTexts : Texts where
  encode := text "utf8"
  type := text "Chat"
  deviceCxt := []
  request := text "\x7b\"q\":\"hi\"\x7d"

theorem sample_described : Described some sampleTexts.request [(text "q", text "hi")] := by
  have empty : Blank [] := fun _ member => by cases member
  have name : JsonContent.Content [113] ['q'] :=
    @JsonContent.Content.unescaped 'q' [] [] (by decide) .done
  have value : JsonContent.Content [104, 105] ['h', 'i'] :=
    @JsonContent.Content.unescaped 'h' [105] ['i'] (by decide)
      (@JsonContent.Content.unescaped 'i' [] [] (by decide) .done)
  have last : Element some 1 (34 :: ([104, 105] ++ [34])) (.string (text "hi")) := .string value
  have entries := Members.last (.named empty name empty (.between empty last empty))
  have padded : Padded some 2 sampleTexts.request (.object (flat [(text "q", text "hi")])) :=
    .between empty (.object entries) empty
  refine .object padded (by decide) ?_
  intro member inside
  rw [List.mem_singleton.mp inside, arrives_iff]
  decide +kernel

def sampleParts : List (List Byte) :=
  [sampleTexts.encode, sampleTexts.type, sampleTexts.deviceCxt, sampleTexts.request]

theorem sample_plain (value : List Byte) (sent : value ∈ sampleParts) :
    FormParameters.Plain value := by
  have shown : ∀ value ∈ sampleParts,
      ParameterFields.amp ∉ value ∧ URLDecode value = value := by decide +kernel
  exact ⟨(shown value sent).1, (decode_eq_self_iff value).mp (shown value sent).2⟩

def sampleSent : FormParameters.Sent where
  values := sampleTexts
  encode := by decide
  type := by decide
  deviceCxt := by decide
  request := by decide
  fits := by decide +kernel

def sampleRequest : Request some 0 where
  message := {
    header := text "POST /request HTTP/1.1\r\nContent-Length:87"
    body := FormParameters.body sampleTexts
    ended := ended_of_split _ (by decide)
    clean := by decide +kernel }
  sent := sampleSent
  deviceCxt := []
  request := [(text "q", text "hi")]
  body := rfl
  accepted := by decide +kernel
  short := by decide
  kept := ⟨.inr ⟨rfl, sample_plain _ (by decide)⟩, .inr ⟨by decide, sample_plain _ (by decide)⟩,
    .inr ⟨by decide, sample_plain _ (by decide)⟩, .inr ⟨by decide, sample_plain _ (by decide)⟩⟩
  describesDeviceCxt := .missing
  describesRequest := sample_described

/-- The same request twice, five bytes at a time. -/
theorem requests_arrive_twice :
    ∃ workers, (submittedRequests (calls (GetInfo 0) 3
          (Conn.fresh (stream ([sampleRequest, sampleRequest].map Request.message))
            (List.replicate 300 5)))).mapM
        (fun body => parse_worker some (newWorker .DEFAULT_SOURCE body)) = .ok workers ∧
      List.Forall₂ Holds [sampleRequest, sampleRequest] workers :=
  requests_arrive [sampleRequest, sampleRequest] (List.replicate 300 5) 3 (by decide)
    ⟨fun size member => by rw [List.eq_of_mem_replicate member]; decide, by decide +kernel⟩
    .DEFAULT_SOURCE

end AsrServer.RequestArrival
