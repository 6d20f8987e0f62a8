import AsrServer.Framing

/-!
Which bytes a call of `recv_request` does not survive. Two things can go wrong:
`substr` throws `std::out_of_range`, or `GetInfo` hands `sscanf` a pointer that
`find` returning `npos` has put ahead of the string. `SafeInput` says of the bytes
alone that neither happens, and it is exact.
-/

namespace AsrServer.ReadSurvival

open Bytes RequestHeader ReadPath Framing

/-- How far `header.c_str() + header.find(pattern)` is from the first character. -/
def offset (header pattern : List Byte) : Int :=
  match find header pattern with
  | some pos => pos
  | none => -1

def scanned (before : Byte) (header : List Byte) : List Int :=
  offset header (text "POST") ::
    match scanRequestLine (c_str before header (find header (text "POST"))) with
    | some _ => [offset header (text "Content-Length:")]
    | none => []

structure Survives (before : Byte) (conn : Conn) : Prop where
  returns : (recv_request (GetInfo before) conn).1 ≠ .out_of_range
  inside : ∀ http mid, opened conn = some (http, mid) → http ≠ [] →
    ∀ start ∈ scanned before http, 0 ≤ start ∧ start ≤ http.length

/-! The condition. `arrivals` are the texts the socket delivers, one for each read,
up to the first read that brings nothing. -/

def arrivals (unread : List Byte) : List Nat → List (List Byte)
  | [] => []
  | size :: later =>
      let got := read_data size unread readBufSize
      if got.1 = [] then [] else cstr got.1 :: arrivals got.2 later

def buffers (conn : Conn) : List (List Byte) :=
  (arrivals conn.unread conn.plan).scanl (· ++ ·) conn.read_buf

/-- A terminator at an offset that is not negative as an `int`. -/
def terminated (buffer : List Byte) : Option (List Byte × Int) :=
  match find buffer crlfcrlf with
  | some found => if 0 ≤ toInt found then some (buffer, toInt found) else none
  | none => none

structure SafeHeader (http rest : List Byte) : Prop where
  method : text "POST" <:+: http
  length : ∀ start uri, find http (text "POST") = some start →
    scanRequestLine (cstr (http.drop start)) = some uri → text "Content-Length:" <:+: http
  count : ∀ start uri field length, find http (text "POST") = some start →
    scanRequestLine (cstr (http.drop start)) = some uri → strcasecmp uri (text "request") →
    find http (text "Content-Length:") = some field →
    scanContentLength (cstr (http.drop field)) = some length →
    0 ≤ length ∨ 0 ≤ toInt (length - rest.length)

/-- The first terminator leaves room for `pos + 4`, and an empty header or a safe
one stands before it. -/
def SafeInput (conn : Conn) : Prop :=
  ∀ buffer pos, (buffers conn).findSome? terminated = some (buffer, pos) →
    pos + 4 < 2 ^ 31 ∧
      (substrTo buffer pos ≠ [] →
        SafeHeader (substrTo buffer pos) (buffer.drop (pos + 4).toNat))

/-! The header loop stops at the first terminated buffer. -/

theorem find_isSome (string pattern : List Byte) :
    (find string pattern).isSome ↔ pattern <:+: string := by
  cases found : string.dropInfix? pattern with
  | none =>
      simp only [find, found, Option.isSome_none, Bool.false_eq_true, false_iff]
      rintro ⟨left, right, same⟩
      exact (Occurrence.split_none_iff string pattern).mp found left right same.symm
  | some parts =>
      simp only [find, found, Option.isSome_some, true_iff]
      exact ⟨parts.1, parts.2, (Occurrence.split_text _ _ _ _ found).symm⟩

theorem find_le (string pattern : List Byte) (pos : Nat) (found : find string pattern = some pos) :
    pos ≤ string.length := by
  cases split : string.dropInfix? pattern with
  | none => simp [find, split] at found
  | some parts =>
      simp only [find, split, Option.some.injEq] at found
      have lengths := congrArg List.length (Occurrence.split_text _ _ _ _ split)
      simp only [List.length_append] at lengths
      omega

theorem terminated_le (buffer held : List Byte) (pos : Int)
    (ends : terminated buffer = some (held, pos)) :
    held = buffer ∧ 0 ≤ pos ∧ pos < 2 ^ 31 ∧ pos + 4 ≤ buffer.length := by
  cases split : buffer.dropInfix? crlfcrlf with
  | none => simp [terminated, find, split] at ends
  | some parts =>
      simp only [terminated, find, split] at ends
      by_cases valid : 0 ≤ toInt parts.1.length
      · simp only [valid, ↓reduceIte, Option.some.injEq, Prod.mk.injEq] at ends
        have lengths := congrArg List.length (Occurrence.split_text _ _ _ _ split)
        simp only [List.length_append, crlfcrlf_length] at lengths
        have low := toInt_le parts.1.length
        have high := toInt_high parts.1.length
        exact ⟨ends.1.symm, by omega, by omega, by omega⟩
      · simp [valid] at ends

/-- What `read_http_header_timeout` makes of a terminator: `pos + 4` wraps below
zero from 2^31 on. -/
def cutAt : List Byte × Int → HeaderResult × List Byte
  | (buffer, pos) =>
      if pos + 4 < 2 ^ 31 then
        (.complete (substrTo buffer pos), buffer.drop (pos + 4).toNat)
      else (.out_of_range, buffer)

theorem cut_terminated (buffer : List Byte) :
    cut_header buffer = (terminated buffer).map cutAt := by
  cases split : buffer.dropInfix? crlfcrlf with
  | none => simp [cut_header, terminated, find, split]
  | some parts =>
      by_cases valid : 0 ≤ toInt parts.1.length
      · have ends : terminated buffer = some (buffer, toInt parts.1.length) := by
          simp [terminated, find, split, valid]
        have inside := (terminated_le buffer _ _ ends).2.2.2
        have high := toInt_high parts.1.length
        simp only [ends, Option.map_some, cutAt, cut_header, find, split, valid, ↓reduceIte]
        by_cases fits : toInt parts.1.length + 4 < 2 ^ 31
        · rw [if_pos fits, toInt_eq _ (by omega) fits, substr, if_pos (by omega)]
        · have wraps := toInt_wraps (toInt parts.1.length + 4) (by omega) (by omega)
          rw [if_neg fits, substr, if_neg (by omega)]
      · simp [cut_header, terminated, find, split, valid]

theorem header_loop_buffers (buffer unread : List Byte) (plan : List Nat) :
    ((buffers ⟨buffer, unread, plan⟩).findSome? terminated = none →
      (header_loop buffer unread plan).1 = .error) ∧
    ∀ ends, (buffers ⟨buffer, unread, plan⟩).findSome? terminated = some ends →
      (header_loop buffer unread plan).1 = (cutAt ends).1 ∧
        (header_loop buffer unread plan).2.read_buf = (cutAt ends).2 := by
  induction plan generalizing buffer unread with
  | nil =>
      rw [header_loop.eq_def, cut_terminated]
      simp only [buffers, arrivals, List.scanl_nil, List.findSome?_cons, List.findSome?_nil]
      cases terminated buffer with
      | none => simp
      | some ends => simp
  | cons size later ih =>
      rw [header_loop.eq_def, cut_terminated]
      simp only [buffers, arrivals]
      by_cases nothing : (read_data size unread readBufSize).1 = []
      · simp only [nothing, ↓reduceIte, List.scanl_nil, List.findSome?_cons, List.findSome?_nil]
        cases terminated buffer with
        | none => simp
        | some ends => simp
      · simp only [nothing, ↓reduceIte, List.scanl_cons, List.findSome?_cons]
        cases terminated buffer with
        | none =>
            -- No terminator yet: the rest of the run is the run on the longer buffer.
            exact ih _ _
        | some ends => simp

/-! A body read throws for a negative length, unless the subtraction wraps. -/

theorem body_loop_returns (plan : List Nat) (buf_len : Int) (content : List Byte) (left : Int)
    (unread : List Byte) :
    (body_loop buf_len content left unread plan).1 ≠ .out_of_range := by
  induction plan generalizing content left unread with
  | nil =>
      rw [body_loop.eq_def]
      split <;> simp
  | cons size later ih =>
      rw [body_loop.eq_def]
      split
      · dsimp only
        split
        · simp
        · exact ih _ _ _
      · simp

theorem readn_throws_iff (conn : Conn) (length : Int) (low : -2 ^ 31 ≤ length)
    (high : length < 2 ^ 31) :
    (readn_timeout conn length).1 = .out_of_range ↔
      length < 0 ∧ toInt (length - conn.read_buf.length) < 0 := by
  rw [readn_timeout]
  by_cases fewer : toInt (length - conn.read_buf.length) < 0
  · rw [if_pos fewer, substr]
    have inside : 0 ≤ length → length ≤ conn.read_buf.length := by
      intro positive
      by_contra longer
      rw [toInt_eq _ (by omega) (by omega)] at fewer
      omega
    by_cases negative : length < 0
    · rw [if_neg (by omega)]
      simp [negative, fewer]
    · rw [if_pos ⟨by omega, inside (by omega)⟩]
      simp [negative]
  · rw [if_neg fewer]
    simp [fewer, body_loop_returns]

theorem recv_throws_iff (info : List Byte → Option Int) (conn : Conn)
    (int : ∀ http length, info http = some length → -2 ^ 31 ≤ length ∧ length < 2 ^ 31) :
    (recv_request info conn).1 = .out_of_range ↔
      (read_http_header_timeout conn).1 = .out_of_range ∨
        ∃ http mid length, opened conn = some (http, mid) ∧ http ≠ [] ∧
          info http = some length ∧ length < 0 ∧ toInt (length - mid.read_buf.length) < 0 := by
  cases reads : read_http_header_timeout conn with
  | mk result mid =>
    cases result with
    | error => simp [recv_request, opened, reads]
    | out_of_range => simp [recv_request, opened, reads]
    | complete http =>
        simp only [recv_request, opened, reads, reduceCtorEq, Option.some.injEq, Prod.mk.injEq,
          false_or, verdict]
        by_cases empty : http = []
        · simp only [empty, ↓reduceIte, reduceCtorEq, false_iff]
          rintro ⟨_, _, _, ⟨rfl, _⟩, present, _⟩
          exact present rfl
        · simp only [empty, ↓reduceIte]
          cases asked : info http with
          | none =>
              simp only [reduceCtorEq, false_iff]
              rintro ⟨_, _, _, ⟨rfl, rfl⟩, _, stored, _⟩
              rw [asked] at stored
              cases stored
          | some length =>
              -- Only `readn_timeout` can throw behind an accepted header.
              have throws := readn_throws_iff mid length (int http length asked).1
                (int http length asked).2
              have same : (∃ http' mid' length', (http = http' ∧ mid = mid') ∧ http' ≠ [] ∧
                  info http' = some length' ∧ length' < 0 ∧
                    toInt (length' - mid'.read_buf.length) < 0) ↔
                  length < 0 ∧ toInt (length - mid.read_buf.length) < 0 := by
                constructor
                · rintro ⟨_, _, _, ⟨rfl, rfl⟩, _, same_length, negative⟩
                  rw [asked, Option.some.injEq] at same_length
                  subst same_length
                  exact negative
                · intro negative
                  exact ⟨http, mid, length, ⟨rfl, rfl⟩, empty, asked, negative⟩
              rw [same, ← throws]
              cases body : readn_timeout mid length with
              | mk ended last =>
                cases ended with
                | out_of_range => simp [body]
                | ret count content =>
                    by_cases whole : count = length <;> simp [body, whole]

/-! `GetInfo` scans inside the header when both patterns it looks for are there. -/

theorem offset_inside_iff (header pattern : List Byte) :
    (0 ≤ offset header pattern ∧ offset header pattern ≤ header.length) ↔
      pattern <:+: header := by
  rw [← find_isSome, offset]
  cases found : find header pattern with
  | none => simp
  | some pos =>
      have bound := find_le header pattern pos found
      simp [bound]

theorem safe_header_iff (before : Byte) (http rest : List Byte) :
    SafeHeader http rest ↔
      (∀ start ∈ scanned before http, 0 ≤ start ∧ start ≤ http.length) ∧
        ∀ length, GetInfo before http = some length →
          0 ≤ length ∨ 0 ≤ toInt (length - rest.length) := by
  simp only [scanned, List.mem_cons, forall_eq_or_imp, offset_inside_iff]
  cases method : find http (text "POST") with
  | none =>
      have absent : ¬ text "POST" <:+: http := by simp [← find_isSome, method]
      constructor
      · intro safe
        exact absurd safe.method absent
      · rintro ⟨⟨present, _⟩, _⟩
        exact absurd present absent
  | some start =>
      have present : text "POST" <:+: http := by simp [← find_isSome, method]
      simp only [present, true_and, c_str, GetInfo, method]
      cases line : scanRequestLine (cstr (http.drop start)) with
      -- No request line: there is no second scan and no length.
      | none =>
          constructor
          · simp
          · intro _
            constructor
            · exact present
            · intro other uri found scans
              simp_all
            · intro other uri field length found scans
              simp_all
      | some uri =>
          simp only [List.mem_singleton, forall_eq, offset_inside_iff]
          constructor
          · intro safe
            have length := safe.length start uri method line
            constructor
            · exact length
            · intro value accepted
              obtain ⟨field, found⟩ := Option.isSome_iff_exists.mp ((find_isSome _ _).mpr length)
              simp only [found] at accepted
              cases scans : scanContentLength (cstr (http.drop field)) with
              | none => simp [scans] at accepted
              | some asked =>
                  by_cases request : strcasecmp uri (text "request") = true
                  · simp only [scans, request, ↓reduceIte, Option.some.injEq] at accepted
                    subst accepted
                    exact safe.count start uri field asked method line request found scans
                  · simp [scans, request] at accepted
          · rintro ⟨length, count⟩
            constructor
            · exact present
            · intro _ _ _ _
              exact length
            · intro other named field asked at_start scans request found number
              rw [method, Option.some.injEq] at at_start
              subst at_start
              rw [line, Option.some.injEq] at scans
              subst scans
              apply count asked
              simp [found, number, request]

theorem survives_unended (before : Byte) (conn : Conn)
    (stops : (buffers conn).findSome? terminated = none) : Survives before conn := by
  have error : (read_http_header_timeout conn).1 = .error :=
    (header_loop_buffers conn.read_buf conn.unread conn.plan).1 stops
  have closed : opened conn = none := by
    rw [opened]
    split
    · rename_i reads
      rw [reads] at error
      cases error
    · rfl
  constructor
  · simp [recv_throws_iff (GetInfo before) conn (GetInfo_int before), error, closed]
  · simp [closed]

section Ended

variable (before : Byte) {conn : Conn} {held : List Byte} {pos : Int}
  (stops : (buffers conn).findSome? terminated = some (held, pos))

include stops in
/-- Behind such a terminator the rest is cut off at an offset that has wrapped. -/
theorem survives_wrapped (wraps : ¬ pos + 4 < 2 ^ 31) : ¬ Survives before conn := by
  have stop := (header_loop_buffers conn.read_buf conn.unread conn.plan).2 _ stops
  simp only [cutAt, if_neg wraps] at stop
  intro survives
  apply survives.returns
  apply (recv_throws_iff (GetInfo before) conn (GetInfo_int before)).mpr
  exact Or.inl stop.1

include stops in
theorem survives_ended_iff (fits : pos + 4 < 2 ^ 31) : Survives before conn ↔
    (substrTo held pos ≠ [] → SafeHeader (substrTo held pos) (held.drop (pos + 4).toNat)) := by
  have throws := recv_throws_iff (GetInfo before) conn (GetInfo_int before)
  have stop := (header_loop_buffers conn.read_buf conn.unread conn.plan).2 _ stops
  simp only [cutAt, if_pos fits] at stop
  cases reads : read_http_header_timeout conn with
  | mk result mid =>
    rw [read_http_header_timeout] at reads
    rw [reads] at stop
    dsimp only at stop
    rw [stop.1] at reads
    have here : opened conn = some (substrTo held pos, mid) := by
      simp [opened, read_http_header_timeout, reads]
    rw [safe_header_iff before]
    constructor
    · intro survives present
      constructor
      · exact survives.inside _ mid here present
      · intro length accepted
        by_contra negative
        apply survives.returns
        apply throws.mpr
        right
        refine ⟨_, mid, length, here, present, accepted, ?_⟩
        rw [stop.2]
        omega
    · intro safe
      constructor
      · intro thrown
        rcases throws.mp thrown with early | ⟨_, _, length, opens, present, accepted, wraps⟩
        · simp [read_http_header_timeout, reads] at early
        · rw [here] at opens
          cases opens
          have positive := (safe present).2 length accepted
          rw [stop.2] at wraps
          omega
      · intro http _ opens present
        rw [here] at opens
        cases opens
        exact (safe present).1

end Ended

/-- A call returns, and scans inside the header, for exactly the safe inputs. -/
theorem survives_iff (before : Byte) (conn : Conn) : Survives before conn ↔ SafeInput conn := by
  rw [SafeInput]
  cases stops : (buffers conn).findSome? terminated with
  | none =>
      constructor
      · intro _ _ _ found
        cases found
      · exact fun _ => survives_unended before conn stops
  | some ends =>
      obtain ⟨held, pos⟩ := ends
      by_cases fits : pos + 4 < 2 ^ 31
      · rw [survives_ended_iff before stops fits]
        constructor
        · rintro safe _ _ ⟨⟩
          exact ⟨fits, safe⟩
        · intro safe
          exact (safe held pos rfl).2
      · constructor
        · exact fun survives => absurd survives (survives_wrapped before stops fits)
        · exact fun safe => absurd (safe held pos rfl).1 fits

/-- A length of -1 makes `substr` throw; a header without `POST` is scanned from
the byte ahead of it. -/
theorem negative_length_throws :
    (¬ Survives 0 (Conn.fresh
      (text "POST /request HTTP/1.1\r\nContent-Length:-1\r\n\r\n") [512])) ∧
    ¬ Survives 0 (Conn.fresh (text "GET /request HTTP/1.1\r\n\r\n") [512]) := by
  constructor
  · intro survives
    exact survives.returns (by decide +kernel)
  · intro survives
    have outside := survives.inside (text "GET /request HTTP/1.1") ⟨[], [], []⟩
      (by decide +kernel) (by decide) (-1) (by decide +kernel)
    exact absurd outside.1 (by decide)

end AsrServer.ReadSurvival
