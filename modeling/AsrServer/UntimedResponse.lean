import AsrServer.ResponseBudget

/-!
Where the time of all `recv`s stays below the budget, `readHttpResponse` does what it does
without a clock: the call ends with the code and the result of the untimed loops.
-/

namespace AsrServer.UntimedResponse

open Bytes RequestHeader ChunkedContent HttpResponse TimedRead ResponseBudget

/-- The sizes of a plan; a `recv` that fails ends a loop as one that returns 0. -/
def sizes (plan : List Recv) : List Nat := plan.map fun recv => recv.size.getD 0

/-- The clock does not go back, and all that is to come takes less than the budget. -/
structure Calm (timeout : Int) (plan : List Recv) : Prop where
  forth : ∀ recv ∈ plan, recv.t1 ≤ recv.t2
  below : elapsed plan < timeout

theorem elapsed_cons (recv : Recv) (later : List Recv) :
    elapsed (recv :: later) = recv.t2 - recv.t1 + elapsed later := by
  simp [elapsed]

theorem Calm.later {timeout : Int} {recv : Recv} {later : List Recv}
    (calm : Calm timeout (recv :: later)) : Calm (timeout - (recv.t2 - recv.t1)) later := by
  have below := calm.below
  rw [elapsed_cons] at below
  exact ⟨fun other member => calm.forth other (List.mem_cons_of_mem _ member), by omega⟩

theorem Calm.elapsed_nonneg {timeout : Int} {plan : List Recv} (calm : Calm timeout plan) :
    0 ≤ elapsed plan := by
  induction plan generalizing timeout with
  | nil => exact Int.le_refl 0
  | cons recv later ih =>
      have rest := ih calm.later
      have forth := calm.forth recv (by simp)
      rw [elapsed_cons]
      omega

theorem Calm.timely {timeout : Int} {recv : Recv} {later : List Recv}
    (calm : Calm timeout (recv :: later)) : Timely timeout recv := by
  have rest := calm.later.elapsed_nonneg
  have below := calm.below
  rw [elapsed_cons] at below
  exact ⟨calm.forth recv (by simp), by omega⟩

/-! Ends of runs. -/

def Ends (state : State) (code : Int) (result : List Byte) : Prop :=
  ∃ steps, (run state steps).place = .returned code ∧ (run state steps).result = result

theorem run_step (state : State) (steps : Nat) :
    run (step state) steps = run state (steps + 1) := by
  induction steps with
  | zero => rfl
  | succ steps ih => rw [run, ih]; rfl

theorem Ends.step {state : State} {code : Int} {result : List Byte}
    (ends : Ends (step state) code result) : Ends state code result := by
  obtain ⟨steps, place, same⟩ := ends
  rw [run_step] at place same
  exact ⟨steps + 1, place, same⟩

theorem ends_returned (state : State) (code : Int) (place : state.place = .returned code) :
    Ends state code state.result :=
  ⟨0, place, rfl⟩

theorem ends_fail (state : State) {code : Int} {result : List Byte}
    (same : (-1, state.result) = (code, result)) : Ends state.fail code result := by
  cases same
  exact ends_returned state.fail (-1) rfl

theorem ends_ite {α : Type} {condition : Prop} [Decidable condition] {first second : State}
    {one other outcome : α} {code : Int} {result : List Byte}
    (ran : (if condition then one else other) = outcome)
    (yes : condition → one = outcome → Ends first code result)
    (no : ¬ condition → other = outcome → Ends second code result) :
    Ends (if condition then first else second) code result := by
  by_cases holds : condition
  · rw [if_pos holds] at ran ⊢
    exact yes holds ran
  · rw [if_neg holds] at ran ⊢
    exact no holds ran

/-! A `recv` in time. -/

theorem recv_none_iff (recv : Recv) (asked : Nat) (unread : List Byte) :
    recv.n asked unread ≤ 0 ↔ received (recv.size.getD 0) asked unread = [] := by
  have brings := recv_brings recv asked unread
  rw [← List.length_eq_zero_iff, received_length]
  omega

theorem fetch_none (state : State)
    (stopped : received (state.recv.size.getD 0) bufSize state.unread = []) :
    fetch state = none :=
  if_pos ((recv_none_iff _ _ _).mpr stopped)

theorem fetch_some {timeout : Int} {recv : Recv} {later : List Recv}
    (calm : Calm timeout (recv :: later)) (place : Place) (header result unread : List Byte)
    (brings : received (recv.size.getD 0) bufSize unread ≠ []) :
    fetch ⟨place, timeout, header, result, unread, recv :: later⟩ =
      some (recv.t2 - recv.t1, ⟨place, timeout,
        header ++ received (recv.size.getD 0) bufSize unread, result,
        remaining (recv.size.getD 0) bufSize unread, later⟩) := by
  have forth := calm.timely.1
  have more : ¬ recv.n bufSize unread ≤ 0 := fun low => brings ((recv_none_iff _ _ _).mp low)
  exact (if_neg more).trans (if_neg (by simpa [State.recv] using forth))

theorem charge_left (t : Int) (state : State) (inside : t < state.timeout) :
    charge t state = { state with timeout := state.timeout - t } := by
  rw [charge, if_neg (by omega)]

theorem charge_trailer_same (t : Int) (state : State) (inside : t < state.timeout) :
    charge_trailer t state = { state with timeout := state.timeout - t } := by
  rw [charge_trailer, if_neg (by omega)]

/-! The loops that look for a pattern. -/

/-- What an untimed loop comes to is what the timed one does: both give up, or both go on
with what they found. -/
def Follows (state : State) (next : Nat → State → State) :
    Option (Nat × List Byte × Stream) → Prop
  | none => Ends state (-1) state.result
  | some (found, header, stream) => ∃ timeout plan, Calm timeout plan ∧
      stream.plan = sizes plan ∧ ∀ code value,
        Ends (next found { state with
          timeout := timeout
          header := header
          unread := stream.unread
          plan := plan }) code value → Ends state code value

theorem Follows.step {state after : State} {next : Nat → State → State}
    {outcome : Option (Nat × List Byte × Stream)} (ran : step state = after)
    (place : after.place = state.place) (result : after.result = state.result)
    (follows : Follows after next outcome) : Follows state next outcome := by
  cases outcome with
  | none =>
      have ends : Ends after (-1) after.result := follows
      apply Ends.step
      rwa [ran, ← result]
  | some found =>
      obtain ⟨timeout, plan, calm, same, goes⟩ := follows
      refine ⟨timeout, plan, calm, same, fun code value ends => ?_⟩
      apply Ends.step
      rw [ran]
      apply goes
      rwa [place, result]

theorem follows_fail {state after : State} (next : Nat → State → State) (ran : step state = after)
    (place : after.place = .returned (-1)) (result : after.result = state.result) :
    Follows state next none := by
  apply Ends.step
  rw [ran, ← result]
  exact ends_returned after (-1) place

theorem follows_found {place : Place} {timeout : Int} {header result unread more rest : List Byte}
    {recv : Recv} {later : List Recv} (calm : Calm timeout (recv :: later)) (found : Nat)
    (next : Nat → State → State)
    (ran : step ⟨place, timeout, header, result, unread, recv :: later⟩ =
      next found ⟨place, timeout - (recv.t2 - recv.t1), more, result, rest, later⟩) :
    Follows ⟨place, timeout, header, result, unread, recv :: later⟩ next
      (some (found, more, ⟨rest, sizes later⟩)) := by
  refine ⟨timeout - (recv.t2 - recv.t1), later, calm.later, rfl, fun code value ends => ?_⟩
  apply Ends.step
  rwa [ran]

theorem header_follows (result : List Byte) (plan : List Recv) (timeout : Int)
    (header unread : List Byte) (calm : Calm timeout plan) :
    Follows ⟨.header, timeout, header, result, unread, plan⟩ headed
      (header_loop header unread (sizes plan)) := by
  induction plan generalizing timeout header unread with
  | nil =>
      have ran : step ⟨.header, timeout, header, result, unread, []⟩ =
          header_step ⟨.header, timeout, header, result, unread, []⟩ := rfl
      rw [header_step, fetch_none _ (by simp [State.recv, closed, received])] at ran
      exact follows_fail headed ran rfl rfl
  | cons recv later ih =>
      have timely := calm.timely.2
      have ran : step ⟨.header, timeout, header, result, unread, recv :: later⟩ =
          header_step ⟨.header, timeout, header, result, unread, recv :: later⟩ := rfl
      rw [sizes, List.map_cons, header_loop]
      by_cases brings : received (recv.size.getD 0) bufSize unread = []
      · rw [if_pos brings]
        rw [header_step, fetch_none _ (by exact brings)] at ran
        exact follows_fail headed ran rfl rfl
      · rw [if_neg brings]
        rw [header_step, fetch_some calm _ _ _ _ brings] at ran
        dsimp only at ran ⊢
        rw [charge_left _ _ timely] at ran
        dsimp only at ran
        cases found : find (header ++ received (recv.size.getD 0) bufSize unread) crlfcrlf with
        | some pos =>
            rw [found] at ran
            exact follows_found calm _ _ ran
        | none =>
            rw [found] at ran
            dsimp only at ran ⊢
            by_cases large : 4096 < (header ++ received (recv.size.getD 0) bufSize unread).length
            · rw [if_pos large] at ran ⊢
              exact follows_fail headed ran rfl rfl
            · rw [if_neg large, if_neg (by omega)] at ran
              rw [if_neg large]
              exact Follows.step ran rfl rfl (ih _ _ _ calm.later)

/-- The two loops that look for a pattern from a position on, given what their step does. -/
theorem find_follows (pattern : List Byte) (pos : Nat) (place : Place)
    (next : Nat → State → State) (result : List Byte)
    (stops : ∀ state, state.place = place → fetch state = none → step state = state.fail)
    (goes : ∀ state t after, state.place = place → fetch state = some (t, after) →
      t < after.timeout → step state =
        (findFrom after.header pattern pos).elim { after with timeout := after.timeout - t }
          fun found => next found { after with timeout := after.timeout - t })
    (plan : List Recv) (timeout : Int) (header unread : List Byte) (calm : Calm timeout plan)
    (missing : findFrom header pattern pos = none) :
    Follows ⟨place, timeout, header, result, unread, plan⟩ next
      (find_loop pattern pos header unread (sizes plan)) := by
  -- On the plan: both loops take the same `recv`, and time is left.
  induction plan generalizing timeout header unread with
  | nil =>
      have ran := stops ⟨place, timeout, header, result, unread, []⟩ rfl
        (fetch_none _ (by simp [State.recv, closed, received]))
      rw [find_loop.eq_def, missing]
      exact follows_fail next ran rfl rfl
  | cons recv later ih =>
      rw [sizes, List.map_cons, find_loop.eq_def, missing]
      dsimp only
      by_cases brings : received (recv.size.getD 0) bufSize unread = []
      · have ran := stops ⟨place, timeout, header, result, unread, recv :: later⟩ rfl
          (fetch_none _ (by exact brings))
        rw [if_pos brings]
        exact follows_fail next ran rfl rfl
      · have ran := goes _ _ _ rfl (fetch_some calm place header result unread brings)
          calm.timely.2
        rw [if_neg brings]
        dsimp only at ran
        cases found : findFrom (header ++ received (recv.size.getD 0) bufSize unread) pattern
            pos with
        | some found_pos =>
            rw [found] at ran
            rw [find_loop.eq_def, found]
            exact follows_found calm _ _ ran
        | none =>
            rw [found] at ran
            exact Follows.step ran rfl rfl (ih _ _ _ calm.later found)

theorem step_at_size_line {state : State} {pos_num : Nat}
    (place : state.place = .size_line pos_num) : step state = size_line_step pos_num state := by
  unfold step
  rw [place]

theorem size_line_follows (pos_num : Nat) (result : List Byte) (plan : List Recv) (timeout : Int)
    (header unread : List Byte) (calm : Calm timeout plan)
    (missing : findFrom header crlf pos_num = none) :
    Follows ⟨.size_line pos_num, timeout, header, result, unread, plan⟩ (chunk pos_num)
      (find_loop crlf pos_num header unread (sizes plan)) := by
  refine find_follows crlf pos_num _ _ result ?_ ?_ plan timeout header unread calm missing
  · intro state place stopped
    rw [step_at_size_line place, size_line_step, stopped]
  · intro state t after place ran inside
    rw [step_at_size_line place, size_line_step, ran]
    dsimp only
    rw [charge_left _ _ inside]
    dsimp only
    cases findFrom after.header crlf pos_num with
    | some found => rfl
    | none => exact if_neg (by omega)

theorem trailer_follows (pos_chunk_start : Nat) (result : List Byte) (plan : List Recv)
    (timeout : Int) (header unread : List Byte) (calm : Calm timeout plan)
    (missing : findFrom header crlfcrlf pos_chunk_start = none) :
    Follows ⟨.trailer pos_chunk_start, timeout, header, result, unread, plan⟩
      (fun _ state => state.goto (.returned 0))
      (find_loop crlfcrlf pos_chunk_start header unread (sizes plan)) := by
  refine find_follows crlfcrlf pos_chunk_start _ _ result ?_ ?_ plan timeout header unread calm
    missing
  · intro state place stopped
    rw [step_at_trailer place, trailer_step, stopped]
  · intro state t after place ran inside
    rw [step_at_trailer place, trailer_step, ran]
    dsimp only
    rw [charge_trailer_same _ _ inside]
    dsimp only
    cases findFrom after.header crlfcrlf pos_chunk_start with
    | some found => rfl
    | none => exact if_neg (by omega)

/-! `read_nReal_timeout`. -/

/-- The same for a read of `len` bytes, with `buf` of them there: both come short, or both
get the same bytes. -/
def Fills (state : State) (len : Nat) (buf : List Byte) (finish : Int → Read → State → State) :
    Option (List Byte × Stream) → Prop
  | none => ∃ returned read after, returned < (len : Int) ∧ after.result = state.result ∧
      ∀ code value, Ends (finish returned read after) code value → Ends state code value
  | some (bytes, stream) => ∃ read after, read.buf = buf ++ bytes ∧ read.buf.length = len ∧
      Calm after.timeout after.plan ∧ stream = ⟨after.unread, sizes after.plan⟩ ∧
      after.header = state.header ∧ after.result = state.result ∧
      ∀ code value, Ends (finish len read after) code value → Ends state code value

theorem untimed_read_nothing (unread : List Byte) (plan : List Nat) :
    HttpResponse.read_nReal_timeout 0 unread plan = some ([], ⟨unread, plan⟩) := by
  cases plan <;> rfl

theorem Fills.step {state after : State} {len : Nat} {buf front : List Byte}
    {finish : Int → Read → State → State} {outcome : Option (List Byte × Stream)}
    (ran : step state = after) (header : after.header = state.header)
    (result : after.result = state.result) (fills : Fills after len (buf ++ front) finish outcome) :
    Fills state len buf finish
      (outcome.map fun (bytes, stream) => (front ++ bytes, stream)) := by
  cases outcome with
  | none =>
      obtain ⟨returned, read, last, short, same, goes⟩ := fills
      refine ⟨returned, read, last, short, same.trans result, fun code value ends => ?_⟩
      apply Ends.step
      rw [ran]
      exact goes code value ends
  | some got =>
      obtain ⟨read, last, whole, count, calm, socket, same, kept, goes⟩ := fills
      rw [List.append_assoc] at whole
      refine ⟨read, last, whole, count, calm, socket, same.trans header, kept.trans result,
        fun code value ends => ?_⟩
      apply Ends.step
      rw [ran]
      exact goes code value ends

theorem round_stops (len : Nat) (read : Read) (unread : List Byte) (recv : Recv)
    (stopped : received (recv.size.getD 0) (len - read.bytes_transferred) unread = []) :
    ∃ n after, n ≤ 0 ∧ read_round len read unread recv = (some n, after) := by
  have low := (recv_none_iff _ _ _).mpr stopped
  exact ⟨_, _, low, if_pos low⟩

theorem round_goes (len : Nat) (timeout : Int) (buf got unread : List Byte) (recv : Recv)
    (timely : Timely timeout recv)
    (gets : received (recv.size.getD 0) (len - buf.length) unread = got) (nonempty : got ≠ []) :
    ∃ n, read_round len ⟨buf.length, buf, timeout, none⟩ unread recv =
      (if (buf ++ got).length < len then none else .some ↑(buf ++ got).length,
        ⟨(buf ++ got).length, buf ++ got, timeout - (recv.t2 - recv.t1), n⟩) := by
  have all : Read.all ⟨buf.length, buf, timeout, none⟩ len unread recv = buf ++ got :=
    congrArg (buf ++ ·) gets
  have passed := round_passed len ⟨buf.length, buf, timeout, none⟩ unread recv rfl
  generalize read_round len ⟨buf.length, buf, timeout, none⟩ unread recv = outcome at *
  cases passed with
  | stopped last =>
      have nothing := (recv_none_iff _ _ _).mp (Int.not_lt.mp last)
      exact absurd (gets.symm.trans nothing) nonempty
  | late brings late left => exact absurd timely late
  | more brings timely below =>
      rw [all] at below
      rw [all, if_pos below]
      exact ⟨_, rfl⟩
  | full brings timely enough =>
      rw [all] at enough
      rw [all, if_neg enough]
      exact ⟨_, rfl⟩

section Reads

variable {len : Nat} (place : Nat → List Byte → Place) {finish : Int → Read → State → State}
variable (goes : ∀ state bytes_transferred buf returned read after,
  state.place = place bytes_transferred buf →
  read_step len bytes_transferred buf state = (returned, read, after) →
  step state = returned.elim (after.goto (place read.bytes_transferred read.buf))
    fun returned => finish returned read after)

include goes

theorem read_steps (header result : List Byte) (plan : List Recv) (timeout : Int)
    (buf unread : List Byte) (recv : Recv) (outcome : Option Int × Read)
    (next : plan.headD closed = recv)
    (passed : read_round len ⟨buf.length, buf, timeout, none⟩ unread recv = outcome) :
    step ⟨place buf.length buf, timeout, header, result, unread, plan⟩ =
      outcome.1.elim
        ⟨place outcome.2.bytes_transferred outcome.2.buf, outcome.2.timeout, header, result,
          recv.later (len - buf.length) unread, plan.tail⟩
        fun returned => finish returned outcome.2
          ⟨place buf.length buf, outcome.2.timeout, header, result,
            recv.later (len - buf.length) unread, plan.tail⟩ := by
  have ran := goes ⟨place buf.length buf, timeout, header, result, unread, plan⟩ buf.length buf
    _ _ _ rfl rfl
  subst next
  rw [← passed]
  exact ran

theorem read_fills (header result : List Byte) (plan : List Recv) (timeout : Int)
    (buf unread : List Byte) (calm : Calm timeout plan) (short : buf.length < len) :
    Fills ⟨place buf.length buf, timeout, header, result, unread, plan⟩ len buf finish
      (HttpResponse.read_nReal_timeout (len - buf.length) unread (sizes plan)) := by
  -- On the plan, until the buffer is full.
  induction plan generalizing timeout buf unread with
  | nil =>
      obtain ⟨n, after, low, passed⟩ :=
        round_stops len ⟨buf.length, buf, timeout, .none⟩ unread closed (by simp [closed, received])
      have ran := read_steps place goes header result [] timeout buf unread closed _ rfl passed
      rw [sizes, List.map_nil, HttpResponse.read_nReal_timeout, if_neg (by omega)]
      refine ⟨n, after, _, by omega, ?_, fun code value ends => Ends.step (ran ▸ ends)⟩
      rfl
  | cons recv later ih =>
      rw [sizes, List.map_cons, HttpResponse.read_nReal_timeout, if_neg (by omega)]
      generalize gets : received (recv.size.getD 0) (len - buf.length) unread = got
      by_cases empty : got = []
      · obtain ⟨n, after, low, passed⟩ :=
          round_stops len ⟨buf.length, buf, timeout, .none⟩ unread recv (gets.trans empty)
        have ran := read_steps place goes header result (recv :: later) timeout buf unread recv _
          rfl passed
        rw [if_pos (by assumption)]
        refine ⟨n, after, _, by omega, ?_, fun code value ends => Ends.step (ran ▸ ends)⟩
        rfl
      · obtain ⟨n, passed⟩ := round_goes len timeout buf got unread recv calm.timely gets empty
        have ran := read_steps place goes header result (recv :: later) timeout buf unread recv _
          rfl passed
        have asked : got.length ≤ len - buf.length := by
          rw [← gets, received_length]
          omega
        have rest : len - buf.length - got.length = len - (buf ++ got).length := by
          rw [List.length_append]
          omega
        rw [if_neg empty, rest]
        by_cases below : (buf ++ got).length < len
        · rw [if_pos below] at ran
          exact Fills.step ran rfl rfl (ih _ _ _ calm.later below)
        · rw [if_neg below] at ran
          have full : (buf ++ got).length = len := by
            rw [List.length_append] at below ⊢
            omega
          rw [full] at ran ⊢
          rw [Nat.sub_self, untimed_read_nothing]
          refine ⟨_, _, ?_, ?_, calm.later, ?_, ?_, ?_, fun code value ends =>
            Ends.step (ran ▸ ends)⟩
          · rw [List.append_nil]
          · exact full
          all_goals rfl

end Reads

/-! The whole call. -/

theorem chunk_fills (pos_num pos_chunk_start chunk_size len : Nat) (header result : List Byte)
    (plan : List Recv) (timeout : Int) (unread : List Byte) (calm : Calm timeout plan)
    (positive : 0 < len) :
    Fills ⟨.chunk pos_num pos_chunk_start chunk_size len 0 [], timeout, header, result, unread,
        plan⟩ len []
      (fun returned read state =>
        if returned < len then state.fail
        else
          let header := state.header ++ read.buf.take returned.toNat
          { state.goto (.scanning pos_num) with
            header := header
            result := state.result ++ (header.drop (pos_chunk_start + 2)).take chunk_size })
      (HttpResponse.read_nReal_timeout len unread (sizes plan)) := by
  refine read_fills (.chunk pos_num pos_chunk_start chunk_size len) ?_ header result plan timeout
    [] unread calm positive
  intro state bytes_transferred buf returned read after place ran
  unfold step
  rw [place]
  dsimp only
  rw [chunk_step, ran]
  cases returned <;> rfl

theorem content_fills (header_length len : Nat) (header result : List Byte)
    (plan : List Recv) (timeout : Int) (unread : List Byte) (calm : Calm timeout plan)
    (positive : 0 < len) :
    Fills ⟨.content header_length len 0 [], timeout, header, result, unread, plan⟩ len []
      (fun returned read state =>
        if returned = len then
          let header := state.header ++ read.buf.take returned.toNat
          { state.goto (.returned 0) with
            header := header
            result := header.drop header_length }
        else state.fail)
      (HttpResponse.read_nReal_timeout len unread (sizes plan)) := by
  refine read_fills (.content header_length len) ?_ header result plan timeout [] unread calm
    positive
  intro state bytes_transferred buf returned read after place ran
  unfold step
  rw [place]
  dsimp only
  rw [content_step, ran]
  cases returned <;> rfl

section Chunk

variable {pos_num pos_chunk_start chunk_size len : Nat} {header result unread : List Byte}
  {plan : List Recv} {timeout : Int}

theorem chunk_short (calm : Calm timeout plan) (positive : 0 < len)
    (reads : HttpResponse.read_nReal_timeout len unread (sizes plan) = none) :
    Ends ⟨.chunk pos_num pos_chunk_start chunk_size len 0 [], timeout, header, result, unread,
      plan⟩ (-1) result := by
  have fills := chunk_fills pos_num pos_chunk_start chunk_size len header result plan timeout
    unread calm positive
  rw [reads] at fills
  obtain ⟨returned, read, after, below, kept, goes⟩ := fills
  apply goes
  dsimp only
  rw [if_pos below]
  exact ⟨0, rfl, kept⟩

theorem chunk_whole {bytes : List Byte} {stream : Stream} (calm : Calm timeout plan)
    (positive : 0 < len)
    (reads : HttpResponse.read_nReal_timeout len unread (sizes plan) = .some (bytes, stream)) :
    ∃ timeout' plan', Calm timeout' plan' ∧ stream.plan = sizes plan' ∧ ∀ code value,
      Ends ⟨.scanning pos_num, timeout', header ++ bytes,
        result ++ ((header ++ bytes).drop (pos_chunk_start + 2)).take chunk_size, stream.unread,
          plan'⟩ code value →
      Ends ⟨.chunk pos_num pos_chunk_start chunk_size len 0 [], timeout, header, result, unread,
        plan⟩ code value := by
  have fills := chunk_fills pos_num pos_chunk_start chunk_size len header result plan timeout
    unread calm positive
  rw [reads] at fills
  obtain ⟨read, after, whole, count, calm, rfl, kept, same, goes⟩ := fills
  refine ⟨after.timeout, after.plan, calm, rfl, fun code value ends => goes code value ?_⟩
  have all : read.buf.take (len : Int).toNat = bytes := by
    rw [Int.toNat_natCast, ← count, List.take_length, whole, List.nil_append]
  dsimp only
  rw [if_neg (Int.lt_irrefl _), all, kept, same]
  exact ends

end Chunk

theorem content_ends (header_length len : Nat) (header unread : List Byte) (plan : List Recv)
    (timeout : Int) (calm : Calm timeout plan) (positive : 0 < len) :
    Ends ⟨.content header_length len 0 [], timeout, header, [], unread, plan⟩
      (if HttpResponse.read_nReal_timeout len unread (sizes plan) = none then -1 else 0)
      (((HttpResponse.read_nReal_timeout len unread (sizes plan)).map fun got =>
        (header ++ got.1).drop header_length).getD []) := by
  have fills := content_fills header_length len header [] plan timeout unread calm positive
  cases reads : HttpResponse.read_nReal_timeout len unread (sizes plan) with
  | none =>
      rw [reads] at fills
      obtain ⟨returned, read, after, below, kept, goes⟩ := fills
      apply goes
      dsimp only
      rw [if_neg (Int.ne_of_lt below)]
      exact ⟨0, rfl, kept⟩
  | some got =>
      rw [reads] at fills
      obtain ⟨read, after, whole, count, calm, socket, kept, same, goes⟩ := fills
      apply goes
      have all : read.buf.take (len : Int).toNat = got.1 := by
        rw [Int.toNat_natCast, ← count, List.take_length, whole, List.nil_append]
      dsimp only
      rw [if_pos rfl, all, kept]
      exact ⟨0, rfl, rfl⟩

theorem trailer_ends (pos_chunk_start : Nat) (place : Place) (timeout : Int)
    (header result unread : List Byte) (plan : List Recv) (calm : Calm timeout plan) :
    Ends (trailer pos_chunk_start ⟨place, timeout, header, result, unread, plan⟩)
      (if find_loop crlfcrlf pos_chunk_start header unread (sizes plan) = none then -1 else 0)
      result := by
  cases found : findFrom header crlfcrlf pos_chunk_start with
  | some pos =>
      rw [trailer, found, find_loop.eq_def, found]
      exact ends_returned _ 0 rfl
  | none =>
      have follows := trailer_follows pos_chunk_start result plan timeout header unread calm found
      rw [trailer, found]
      cases outcome : find_loop crlfcrlf pos_chunk_start header unread (sizes plan) with
      | none =>
          rw [outcome] at follows
          exact follows
      | some parts =>
          rw [outcome] at follows
          obtain ⟨timeout, plan, calm, same, goes⟩ := follows
          exact goes 0 result (ends_returned _ 0 rfl)

theorem scan_follows (pos_num : Nat) (result : List Byte) (plan : List Recv) (timeout : Int)
    (header unread : List Byte) (calm : Calm timeout plan) :
    Follows ⟨.scanning pos_num, timeout, header, result, unread, plan⟩ (chunk pos_num)
      (find_loop crlf pos_num header unread (sizes plan)) := by
  have ran : step ⟨.scanning pos_num, timeout, header, result, unread, plan⟩ =
      scan pos_num ⟨.scanning pos_num, timeout, header, result, unread, plan⟩ := rfl
  rw [scan] at ran
  dsimp only at ran
  cases found : findFrom header crlf pos_num with
  | some pos =>
      rw [found] at ran
      rw [find_loop.eq_def, found]
      refine ⟨timeout, plan, calm, rfl, fun code value ends => ?_⟩
      apply Ends.step
      rwa [ran]
  | none =>
      rw [found] at ran
      have follows := size_line_follows pos_num result plan timeout header unread calm found
      cases outcome : find_loop crlf pos_num header unread (sizes plan) with
      | none =>
          rw [outcome] at follows
          apply Ends.step
          rw [ran]
          exact follows
      | some parts =>
          rw [outcome] at follows
          obtain ⟨timeout, plan, calm, same, goes⟩ := follows
          refine ⟨timeout, plan, calm, same, fun code value ends => ?_⟩
          apply Ends.step
          rw [ran]
          exact goes code value ends

theorem rounds_end (fuel pos_num : Nat) (header result unread : List Byte) (plan : List Recv)
    (timeout code : Int) (value : List Byte) (calm : Calm timeout plan)
    (ran : chunk_rounds fuel pos_num header ⟨unread, sizes plan⟩ result = some (code, value)) :
    Ends ⟨.scanning pos_num, timeout, header, result, unread, plan⟩ code value := by
  -- On the fuel, which both count in rounds.
  induction fuel generalizing pos_num header result unread plan timeout with
  | zero => cases ran
  | succ fuel ih =>
      have follows := scan_follows pos_num result plan timeout header unread calm
      rw [chunk_rounds] at ran
      dsimp only at ran
      cases outcome : find_loop crlf pos_num header unread (sizes plan) with
      | none =>
          rw [outcome] at ran follows
          cases ran
          exact follows
      | some parts =>
          obtain ⟨pos_chunk_start, header, stream⟩ := parts
          rw [outcome] at ran follows
          obtain ⟨timeout, plan, calm, same, goes⟩ := follows
          obtain ⟨unread, others⟩ := stream
          dsimp only at same ran
          subst same
          apply goes
          dsimp only [chunk]
          generalize hexSize ((header.drop pos_num).take (pos_chunk_start - pos_num)) =
            chunk_size at *
          generalize (pos_chunk_start + 4 + chunk_size) % 2 ^ 64 = pos_next at *
          -- The same tests in the same order: the last chunk, what remains of a chunk, and its
          -- reads.
          refine ends_ite ran (fun last ran => ?_) fun last ran => ?_
          · have ends := trailer_ends pos_chunk_start (.scanning pos_num) timeout header result
              unread plan calm
            cases trailing : find_loop crlfcrlf pos_chunk_start header unread (sizes plan) with
            | none =>
                rw [trailing] at ran ends
                cases ran
                exact ends
            | some parts =>
                rw [trailing] at ran ends
                cases ran
                exact ends
          · generalize toSsize (pos_next - header.length) = remain at *
            refine ends_ite ran (fun short ran => ?_) fun short ran => ih _ _ _ _ _ _ calm ran
            refine ends_ite ran (fun _ ran => ends_fail _ (Option.some.inj ran)) fun _ ran => ?_
            cases reads : HttpResponse.read_nReal_timeout remain.toNat unread (sizes plan) with
            | none =>
                rw [reads] at ran
                cases ran
                exact chunk_short calm (by omega) reads
            | some got =>
                rw [reads] at ran
                obtain ⟨timeout, plan, calm, same, goes⟩ := chunk_whole calm (by omega) reads
                refine goes _ _ (ih _ _ _ _ _ _ calm ?_)
                rw [← same]
                exact ran

theorem content_length_ends (header_length : Nat) (header unread : List Byte)
    (plan : List Recv) (timeout code : Int) (value : List Byte) (calm : Calm timeout plan)
    (place : Place)
    (ran : HttpResponse.readHttpConten_Length header header_length ⟨unread, sizes plan⟩ =
      (code, value)) :
    Ends (ResponseBudget.readHttpConten_Length header_length
      ⟨place, timeout, header, [], unread, plan⟩) code value := by
  rw [HttpResponse.readHttpConten_Length] at ran
  rw [ResponseBudget.readHttpConten_Length]
  dsimp only at ran ⊢
  cases found : find header (text "Content-Length:") with
  | none =>
      rw [found] at ran
      cases ran
      exact ends_returned _ (-1) rfl
  | some pos =>
      rw [found] at ran
      dsimp only at ran ⊢
      generalize atoi (header.drop (pos + 15)) = content_length at *
      generalize toSsize (header_length + content_length - header.length) = remain at *
      refine ends_ite ran (fun _ ran => ends_fail _ ran) fun _ ran => ?_
      refine ends_ite ran (fun _ ran => ends_fail _ ran) fun _ ran => ?_
      refine ends_ite ran (fun _ ran => ends_fail _ ran) fun _ ran => ?_
      refine ends_ite ran (fun short ran => ?_) fun _ ran => ?_
      · refine ends_ite ran (fun _ ran => ends_fail _ ran) fun _ ran => ?_
        have ends := content_ends header_length remain.toNat header unread plan timeout calm
          (by omega)
        cases reads : HttpResponse.read_nReal_timeout remain.toNat unread (sizes plan) with
        | none =>
            rw [reads] at ran ends
            cases ran
            exact ends
        | some got =>
            rw [reads] at ran ends
            cases ran
            exact ends
      · cases ran
        exact ends_returned _ 0 rfl

/-- In time, the call does what it does without a clock. -/
theorem response_untimed (timeout : Int) (unread : List Byte) (plan : List Recv)
    (calm : Calm timeout plan) (code : Int) (result : List Byte)
    (ran : HttpResponse.readHttpResponse ⟨unread, sizes plan⟩ = some (code, result)) :
    Ends (ResponseBudget.readHttpResponse timeout unread plan) code result := by
  have follows := header_follows [] plan timeout [] unread calm
  rw [HttpResponse.readHttpResponse] at ran
  dsimp only at ran
  cases outcome : header_loop [] unread (sizes plan) with
  | none =>
      rw [outcome] at ran follows
      cases ran
      exact follows
  | some parts =>
      obtain ⟨header_length, header, stream⟩ := parts
      rw [outcome] at ran follows
      obtain ⟨timeout, plan, calm, same, goes⟩ := follows
      obtain ⟨unread, others⟩ := stream
      dsimp only at same ran
      subst same
      apply goes
      dsimp only [headed]
      cases found : find header chunkedMark with
      | some pos =>
          rw [found] at ran
          dsimp only at ran ⊢
          by_cases chunked : pos < header_length
          · rw [if_pos chunked] at ran ⊢
            exact rounds_end _ _ _ _ _ _ _ _ _ calm ran
          · rw [if_neg chunked] at ran ⊢
            exact content_length_ends _ _ _ _ _ _ _ calm _ (Option.some.inj ran)
      | none =>
          rw [found] at ran
          exact content_length_ends _ _ _ _ _ _ _ calm _ (Option.some.inj ran)

end AsrServer.UntimedResponse
