import AsrServer.TimedRead

/-!
`readHttpResponse` with its time budget, a `recv` a step. Between two steps the call
waits in one of its loops; a round of the outer loop of `readHttpIs_Chunk` that needs no
`recv` is a step of its own. The clock may go back, as in `read_nReal_timeout`.
-/

namespace AsrServer.ResponseBudget

open Bytes RequestHeader ChunkedContent HttpResponse TimedRead

/-- Where the call is: in front of a `recv` of one of the five loops, at the top of the outer
loop of `readHttpIs_Chunk`, or at its end. -/
inductive Place where
  | header
  | scanning (pos_num : Nat)
  | size_line (pos_num : Nat)
  | chunk (pos_num pos_chunk_start chunk_size len bytes_transferred : Nat) (buf : List Byte)
  | trailer (pos_chunk_start : Nat)
  | content (header_length len bytes_transferred : Nat) (buf : List Byte)
  | returned (code : Int)
  deriving DecidableEq, Repr

structure State where
  place : Place
  timeout : Int
  header : List Byte
  result : List Byte
  unread : List Byte
  plan : List Recv
  deriving DecidableEq, Repr

def closed : Recv := ⟨some 0, 0, 0⟩

def State.recv (state : State) : Recv := state.plan.headD closed

def State.later (state : State) (asked : Nat) : State :=
  { state with
    unread := state.recv.later asked state.unread
    plan := state.plan.tail }

def State.goto (state : State) (place : Place) : State := { state with place := place }

def State.fail (state : State) : State := state.goto (.returned (-1))

/-- `recv` into `buf` and `header.append`, and the time that took; none where the loop around it
is left without a further look at `header`. -/
def fetch (state : State) : Option (Int × State) :=
  if state.recv.n bufSize state.unread ≤ 0 then none
  else if state.recv.t2 < state.recv.t1 then none
  else
    some (state.recv.t2 - state.recv.t1,
      { state.later bufSize with
        header := state.header ++ state.recv.bytes bufSize state.unread })

/-- `if(t >= *timeout) *timeout = zero; else *timeout -= t;`. -/
def charge (t : Int) (state : State) : State :=
  { state with timeout := if state.timeout ≤ t then 0 else state.timeout - t }

/-- The same without the `else`. -/
def charge_trailer (t : Int) (state : State) : State :=
  { state with timeout := (if state.timeout ≤ t then 0 else state.timeout) - t }

/-- `read_nReal_timeout` at one of its `recv`s. -/
def read_step (len bytes_transferred : Nat) (buf : List Byte) (state : State) :
    Option Int × Read × State :=
  let ran := read_round len ⟨bytes_transferred, buf, state.timeout, none⟩ state.unread state.recv
  (ran.1, ran.2, { state.later (len - bytes_transferred) with timeout := ran.2.timeout })

/-- `readHttpConten_Length` up to its `recv`. -/
def readHttpConten_Length (header_length : Nat) (state : State) : State :=
  match find state.header (text "Content-Length:") with
  | none => state.fail
  | some pos =>
      if header_length ≤ pos then state.fail
      else
        let content_length := atoi (state.header.drop (pos + 15))
        if content_length < 0 then state.fail
        else
          let remain := toSsize (header_length + content_length - state.header.length)
          if remain < 0 then state.fail
          else if 0 < remain then
            if (bufSize : Int) < remain then state.fail
            else state.goto (.content header_length remain.toNat 0 [])
          else { state.goto (.returned 0) with result := state.header.drop header_length }

def content_step (header_length len bytes_transferred : Nat) (buf : List Byte) (state : State) :
    State :=
  match read_step len bytes_transferred buf state with
  | (none, read, state) =>
      state.goto (.content header_length len read.bytes_transferred read.buf)
  | (some returned, read, state) =>
      if returned = len then
        let header := state.header ++ read.buf.take returned.toNat
        { state.goto (.returned 0) with
          header := header
          result := header.drop header_length }
      else state.fail

/-- The loop behind the last chunk, with the position of its size line. -/
def trailer (pos_chunk_start : Nat) (state : State) : State :=
  match findFrom state.header crlfcrlf pos_chunk_start with
  | some _ => state.goto (.returned 0)
  | none => state.goto (.trailer pos_chunk_start)

def trailer_step (pos_chunk_start : Nat) (state : State) : State :=
  match fetch state with
  | none => state.fail
  | some (t, state) =>
      let state := charge_trailer t state
      match findFrom state.header crlfcrlf pos_chunk_start with
      | some _ => state.goto (.returned 0)
      | none => if state.timeout = 0 then state.fail else state

def chunk (pos_num pos_chunk_start : Nat) (state : State) : State :=
  let chunk_size := hexSize ((state.header.drop pos_num).take (pos_chunk_start - pos_num))
  if chunk_size = 0 then trailer pos_chunk_start state
  else
    let pos_num : Nat := (pos_chunk_start + 4 + chunk_size) % 2 ^ 64
    let remain := toSsize (pos_num - state.header.length)
    if 0 < remain then
      if (bufSize : Int) < remain then state.fail
      else state.goto (.chunk pos_num pos_chunk_start chunk_size remain.toNat 0 [])
    else
      { state.goto (.scanning pos_num) with
        result := state.result ++ (state.header.drop (pos_chunk_start + 2)).take chunk_size }

def chunk_step (pos_num pos_chunk_start chunk_size len bytes_transferred : Nat)
    (buf : List Byte) (state : State) : State :=
  match read_step len bytes_transferred buf state with
  | (none, read, state) =>
      state.goto
        (.chunk pos_num pos_chunk_start chunk_size len read.bytes_transferred read.buf)
  | (some returned, read, state) =>
      if returned < len then state.fail
      else
        let header := state.header ++ read.buf.take returned.toNat
        { state.goto (.scanning pos_num) with
          header := header
          result := state.result ++ (header.drop (pos_chunk_start + 2)).take chunk_size }

/-- The top of the outer loop. -/
def scan (pos_num : Nat) (state : State) : State :=
  match findFrom state.header crlf pos_num with
  | some pos_chunk_start => chunk pos_num pos_chunk_start state
  | none => state.goto (.size_line pos_num)

def size_line_step (pos_num : Nat) (state : State) : State :=
  match fetch state with
  | none => state.fail
  | some (t, state) =>
      let state := charge t state
      match findFrom state.header crlf pos_num with
      | some pos_chunk_start => chunk pos_num pos_chunk_start state
      | none => if state.timeout = 0 then state.fail else state

def headed (header_length : Nat) (state : State) : State :=
  match find state.header chunkedMark with
  | some pos =>
      if pos < header_length then state.goto (.scanning header_length)
      else readHttpConten_Length header_length state
  | none => readHttpConten_Length header_length state

def header_step (state : State) : State :=
  match fetch state with
  | none => state.fail
  | some (t, state) =>
      let state := charge t state
      match find state.header crlfcrlf with
      | some pos => headed (pos + 4) state
      | none =>
          if 4096 < state.header.length then state.fail
          else if state.timeout = 0 then state.fail
          else state

def step (state : State) : State :=
  match state.place with
  | .header => header_step state
  | .scanning pos_num => scan pos_num state
  | .size_line pos_num => size_line_step pos_num state
  | .chunk pos_num pos_chunk_start chunk_size len bytes_transferred buf =>
      chunk_step pos_num pos_chunk_start chunk_size len bytes_transferred buf state
  | .trailer pos_chunk_start => trailer_step pos_chunk_start state
  | .content header_length len bytes_transferred buf =>
      content_step header_length len bytes_transferred buf state
  | .returned _ => state

def run (state : State) : Nat → State
  | 0 => state
  | steps + 1 => step (run state steps)

def readHttpResponse (timeout : Int) (unread : List Byte) (plan : List Recv) : State :=
  ⟨.header, timeout, [], [], unread, plan⟩

/-! The budget. -/

def Place.receives : Place → Bool
  | .scanning _ => false
  | .returned _ => false
  | _ => true

def State.InTrailer (state : State) : Prop :=
  ∃ pos_chunk_start, state.place = .trailer pos_chunk_start

def State.Spends (state : State) : Prop := state.timeout ≤ state.recv.t2 - state.recv.t1

/-- The budget is not negative at any `recv`, and the loop for the trailer does not go on
once it is used up. -/
structure Kept (state : State) : Prop where
  budget : ∀ steps, (run state steps).place.receives = true → 0 ≤ (run state steps).timeout
  ends : ∀ steps later, steps < later → (run state steps).InTrailer →
    (run state steps).Spends → ¬ (run state later).InTrailer

/-- The coming `recv` is one for the trailer, uses the budget up and does not complete
the trailer. -/
def State.Late (state : State) : Prop :=
  ∃ pos_chunk_start, state.place = .trailer pos_chunk_start ∧
    0 < state.recv.n bufSize state.unread ∧ state.recv.t1 < state.recv.t2 ∧ state.Spends ∧
    findFrom (state.header ++ state.recv.bytes bufSize state.unread) crlfcrlf pos_chunk_start =
      none

def State.Within (state : State) : Prop :=
  (∃ code, state.place = .returned code) ∨ 0 ≤ state.timeout

/-! What runs between two `recv`s leaves the budget alone. -/

theorem content_timeout (header_length : Nat) (state : State) :
    (readHttpConten_Length header_length state).timeout = state.timeout := by
  unfold readHttpConten_Length
  dsimp only
  repeat' split
  all_goals rfl

theorem trailer_timeout (pos_chunk_start : Nat) (state : State) :
    (trailer pos_chunk_start state).timeout = state.timeout := by
  unfold trailer
  split <;> rfl

theorem chunk_timeout (pos_num pos_chunk_start : Nat) (state : State) :
    (chunk pos_num pos_chunk_start state).timeout = state.timeout := by
  unfold chunk
  dsimp only
  repeat' split
  · exact trailer_timeout pos_chunk_start state
  all_goals rfl

theorem scan_timeout (pos_num : Nat) (state : State) :
    (scan pos_num state).timeout = state.timeout := by
  unfold scan
  split
  · exact chunk_timeout pos_num _ state
  · rfl

theorem headed_timeout (header_length : Nat) (state : State) :
    (headed header_length state).timeout = state.timeout := by
  unfold headed
  repeat' split
  · rfl
  all_goals exact content_timeout header_length state

/-! What a `recv` and its charge make of it. -/

theorem fetch_some (state after : State) (t : Int) (ran : fetch state = some (t, after)) :
    0 < state.recv.n bufSize state.unread ∧ state.recv.t1 ≤ state.recv.t2 ∧
      t = state.recv.t2 - state.recv.t1 ∧ after =
        { state.later bufSize with
          header := state.header ++ state.recv.bytes bufSize state.unread } := by
  unfold fetch at ran
  split at ran
  · cases ran
  · split at ran
    · cases ran
    · cases ran
      exact ⟨by omega, by omega, rfl, rfl⟩

theorem charge_budget (t : Int) (state : State) : 0 ≤ (charge t state).timeout := by
  unfold charge
  dsimp only
  split <;> omega

theorem charge_trailer_spent (t : Int) (state : State) (reached : state.timeout ≤ t) :
    (charge_trailer t state).timeout = 0 - t := by
  rw [charge_trailer, if_pos reached]

theorem charge_trailer_left (t : Int) (state : State) (inside : ¬ state.timeout ≤ t) :
    (charge_trailer t state).timeout = state.timeout - t := by
  rw [charge_trailer, if_neg inside]

theorem round_budget (len : Nat) (read : Read) (unread : List Byte) (recv : Recv)
    (budget : 0 ≤ read.timeout) : 0 ≤ (read_round len read unread recv).2.timeout := by
  unfold read_round
  dsimp only
  repeat' split
  all_goals dsimp only; omega

theorem read_step_budget (len bytes_transferred : Nat) (buf : List Byte) (state : State)
    (budget : 0 ≤ state.timeout) : 0 ≤ (read_step len bytes_transferred buf state).2.2.timeout :=
  round_budget _ _ _ _ budget

/-! The steps, one by one. -/

theorem header_step_within (state : State) : (header_step state).Within := by
  unfold header_step
  split
  · exact .inl ⟨-1, rfl⟩
  · rename_i t after ran
    have budget := charge_budget t after
    dsimp only
    repeat' split
    · exact .inr (by rwa [headed_timeout])
    · exact .inl ⟨-1, rfl⟩
    · exact .inl ⟨-1, rfl⟩
    · exact .inr budget

theorem size_line_step_within (pos_num : Nat) (state : State) :
    (size_line_step pos_num state).Within := by
  unfold size_line_step
  split
  · exact .inl ⟨-1, rfl⟩
  · rename_i t after ran
    have budget := charge_budget t after
    dsimp only
    repeat' split
    · exact .inr (by rwa [chunk_timeout])
    · exact .inl ⟨-1, rfl⟩
    · exact .inr budget

theorem chunk_step_within (pos_num pos_chunk_start chunk_size len bytes_transferred : Nat)
    (buf : List Byte) (state : State) (budget : 0 ≤ state.timeout) :
    (chunk_step pos_num pos_chunk_start chunk_size len bytes_transferred buf state).Within := by
  have after := read_step_budget len bytes_transferred buf state budget
  unfold chunk_step
  split
  · rename_i ran
    rw [ran] at after
    exact .inr after
  · rename_i ran
    rw [ran] at after
    split
    · exact .inl ⟨-1, rfl⟩
    · exact .inr after

theorem content_step_within (header_length len bytes_transferred : Nat) (buf : List Byte)
    (state : State) (budget : 0 ≤ state.timeout) :
    (content_step header_length len bytes_transferred buf state).Within := by
  have after := read_step_budget len bytes_transferred buf state budget
  unfold content_step
  split
  · rename_i ran
    rw [ran] at after
    exact .inr after
  · rename_i ran
    split
    · exact .inl ⟨0, rfl⟩
    · exact .inl ⟨-1, rfl⟩

inductive Trailed (state after : State) : Prop where
  | ended (code : Int) (place : after.place = .returned code)
  | timely (left : 0 ≤ after.timeout) (inside : ¬ state.Spends)
  | late (late : state.Late)

theorem trailer_step_cases (pos_chunk_start : Nat) (state : State)
    (place : state.place = .trailer pos_chunk_start) :
    Trailed state (trailer_step pos_chunk_start state) := by
  unfold trailer_step
  split
  · exact .ended (-1) rfl
  · rename_i t after ran
    obtain ⟨brings, forth, rfl, same⟩ := fetch_some state after t ran
    have kept : after.timeout = state.timeout := by rw [same]; rfl
    have read : after.header = state.header ++ state.recv.bytes bufSize state.unread := by
      rw [same]
    dsimp only
    split
    · exact .ended 0 rfl
    · rename_i missing
      split
      · exact .ended (-1) rfl
      · rename_i left
        have searched : findFrom (state.header ++ state.recv.bytes bufSize state.unread) crlfcrlf
            pos_chunk_start = none := by
          rw [← read]
          exact missing
        -- This loop subtracts the time even where it is all that was left.
        by_cases spends : state.Spends
        · have spent := charge_trailer_spent (state.recv.t2 - state.recv.t1) after
            (by rw [kept]; exact spends)
          exact .late ⟨pos_chunk_start, place, brings, by omega, spends, searched⟩
        · have remains := charge_trailer_left (state.recv.t2 - state.recv.t1) after
            (by rw [kept]; exact spends)
          have inside : ¬ state.timeout ≤ state.recv.t2 - state.recv.t1 := spends
          exact .timely (by omega) spends

theorem Trailed.within {state after : State} (trailed : Trailed state after)
    (timely : ¬ state.Late) : after.Within := by
  cases trailed with
  | ended code place => exact .inl ⟨code, place⟩
  | timely left inside => exact .inr left
  | late late => exact absurd late timely

theorem step_at_trailer {state : State} {pos_chunk_start : Nat}
    (place : state.place = .trailer pos_chunk_start) :
    step state = trailer_step pos_chunk_start state := by
  unfold step
  rw [place]

/-- A step keeps the budget unless it is late. -/
theorem step_within (state : State) (within : state.Within) (timely : ¬ state.Late) :
    (step state).Within := by
  unfold step
  rcases within with ⟨code, ended⟩ | budget
  · rw [ended]
    exact .inl ⟨code, ended⟩
  · split
    · exact header_step_within state
    · exact .inr (by rwa [scan_timeout])
    · exact size_line_step_within _ state
    · exact chunk_step_within _ _ _ _ _ _ state budget
    · rename_i pos_chunk_start place
      exact (trailer_step_cases pos_chunk_start state place).within timely
    · exact content_step_within _ _ _ _ state budget
    · exact .inr budget

theorem late_goes_on (state : State) (late : state.Late) :
    (step state).InTrailer ∧ (step state).timeout < 0 := by
  obtain ⟨pos_chunk_start, place, brings, forth, spends, missing⟩ := late
  have ran : fetch state = some (state.recv.t2 - state.recv.t1,
      { state.later bufSize with
        header := state.header ++ state.recv.bytes bufSize state.unread }) := by
    unfold fetch
    rw [if_neg (by omega), if_neg (by omega)]
  have left : (charge_trailer (state.recv.t2 - state.recv.t1)
      { state.later bufSize with
        header := state.header ++ state.recv.bytes bufSize state.unread }).timeout =
      0 - (state.recv.t2 - state.recv.t1) := charge_trailer_spent _ _ spends
  rw [step_at_trailer place, trailer_step, ran]
  dsimp only
  rw [left]
  split
  · rename_i found
    rw [charge_trailer] at found
    dsimp only at found
    rw [missing] at found
    cases found
  · rw [if_neg (by omega)]
    exact ⟨⟨pos_chunk_start, place⟩, by rw [left]; omega⟩

theorem step_trailer (state : State) (pos_chunk_start : Nat)
    (place : state.place = .trailer pos_chunk_start) : Trailed state (step state) := by
  rw [step_at_trailer place]
  exact trailer_step_cases pos_chunk_start state place

/-! Runs. -/

theorem run_within (state : State) (budget : 0 ≤ state.timeout)
    (timely : ∀ steps, ¬ (run state steps).Late) (steps : Nat) : (run state steps).Within := by
  induction steps with
  | zero => exact .inr budget
  | succ steps ih => exact step_within _ ih (timely steps)

theorem run_returned (state : State) (code : Int) (steps more : Nat)
    (ended : (run state steps).place = .returned code) :
    (run state (steps + more)).place = .returned code := by
  induction more with
  | zero => exact ended
  | succ more ih =>
      have stays : step (run state (steps + more)) = run state (steps + more) := by
        unfold step
        rw [ih]
      rw [← Nat.add_assoc, run, stays]
      exact ih

theorem run_budget (state : State) (budget : 0 ≤ state.timeout)
    (timely : ∀ steps, ¬ (run state steps).Late) (steps : Nat)
    (receives : (run state steps).place.receives = true) : 0 ≤ (run state steps).timeout := by
  rcases run_within state budget timely steps with ⟨code, ended⟩ | left
  · rw [ended] at receives
    cases receives
  · exact left

/-- The budget is kept in a run if and only if no step of it is late. -/
theorem budget_kept_iff (timeout : Int) (unread : List Byte) (plan : List Recv)
    (budget : 0 ≤ timeout) :
    Kept (readHttpResponse timeout unread plan) ↔
      ∀ steps, ¬ (run (readHttpResponse timeout unread plan) steps).Late := by
  generalize start : readHttpResponse timeout unread plan = state
  have begins : 0 ≤ state.timeout := by rw [← start]; exact budget
  constructor
  · intro kept steps late
    obtain ⟨⟨pos_chunk_start, stays⟩, below⟩ := late_goes_on _ late
    have left := kept.budget (steps + 1) (by rw [run, stays]; rfl)
    rw [run] at left
    omega
  · intro timely
    constructor
    · exact run_budget state begins timely
    · intro steps later behind inside spends again
      obtain ⟨pos_chunk_start, place⟩ := inside
      obtain ⟨pos_later, again⟩ := again
      cases step_trailer _ _ place with
      | ended code ended =>
          have stays := run_returned state code (steps + 1) (later - (steps + 1)) ended
          have same : steps + 1 + (later - (steps + 1)) = later := by omega
          rw [same, again] at stays
          cases stays
      | timely left inside => exact inside spends
      | late late => exact timely steps late

/-- A chunked response up to the last size line, all of it in the first `recv`. -/
def lateResponse : List Byte :=
  text "HTTP/1.1 200 OK\r\nTransfer-Encoding: chunked\r\n\r\n0\r\n"

theorem budget_kept_example :
    Kept (readHttpResponse 5 lateResponse [⟨some 60, 0, 1⟩]) ↔
      ∀ steps, ¬ (run (readHttpResponse 5 lateResponse [⟨some 60, 0, 1⟩]) steps).Late :=
  budget_kept_iff 5 lateResponse [⟨some 60, 0, 1⟩] (by decide)

/-- The next byte takes two units of a budget of one: the budget is -2 at the `recv`
after it. -/
theorem budget_runs_below :
    ¬ ∀ (timeout : Int) (unread : List Byte) (plan : List Recv), 0 ≤ timeout →
      Kept (readHttpResponse timeout unread plan) := by
  intro kept
  have budget := (kept 2 (lateResponse ++ [0x0d, 0x0a])
    [⟨some lateResponse.length, 0, 1⟩, ⟨some 1, 1, 3⟩] (by decide)).budget 3
  revert budget
  decide +kernel

end AsrServer.ResponseBudget
