import AsrServer.Ownership

/-!
The bytes that go out on a connection. `send_result` is called once for each
worker, under the handle's lock, so the stream is what the calls let out one
after the other. That a call was cut short is written to the log and nowhere
else; the next call on the handle begins a new response.
-/

namespace AsrServer.ReplyStream

open Bytes Reply Server Ownership

variable {R L : Type}

inductive Whole : List Sent → List Byte → Prop where
  | complete (sends : List Sent) : Whole sends (sends.flatMap Sent.response)
  | truncated (front : List Sent) (sent : Sent) (back : List Sent) (last : List Byte)
      (short : last <+: sent.response) :
      Whole (front ++ sent :: back) (front.flatMap Sent.response ++ last)

/-- A connection's stream consists of whole responses but for the end, and nothing is
written behind a call that has failed. -/
structure Streams (state : State R L) (conn : ConnId) : Prop where
  whole : Whole (state.sends conn) (state.output conn)
  silent : (state.sends conn).Pairwise fun earlier later => earlier.ret < 0 → later.written = []

/-- No response behind one that is cut short gets a byte out. -/
def StaysBlocked (sends : List Sent) : Prop :=
  sends.Pairwise fun earlier later => earlier.Cut → later.Blocked

instance (sends : List Sent) : Decidable (StaysBlocked sends) :=
  inferInstanceAs (Decidable (List.Pairwise _ _))

theorem silent_iff (sends : List Sent) (headers : ∀ sent ∈ sends, sent.header ≠ []) :
    (sends.Pairwise fun earlier later => earlier.ret < 0 → later.written = []) ↔
      StaysBlocked sends := by
  apply List.Pairwise.iff_of_mem
  intro earlier later before after
  rw [ret_negative earlier (headers earlier before), written_nothing later (headers later after)]

theorem whole_cons (sent : Sent) (rest : List Sent) (bytes : List Byte)
    (whole : Whole rest bytes) : Whole (sent :: rest) (sent.response ++ bytes) := by
  cases whole with
  | complete => exact .complete (sent :: rest)
  | truncated front next back last short =>
      rw [← List.append_assoc]
      exact .truncated (sent :: front) next back last short

theorem whole_of_blocked (sends : List Sent) (headers : ∀ sent ∈ sends, sent.header ≠ [])
    (blocked : StaysBlocked sends) : Whole sends (sends.flatMap Sent.written) := by
  induction sends with
  | nil => exact .complete []
  | cons sent rest ih =>
      obtain ⟨behind, later⟩ := List.pairwise_cons.mp blocked
      have header := headers sent List.mem_cons_self
      have others : ∀ sent ∈ rest, sent.header ≠ [] :=
        fun next member => headers next (List.mem_cons_of_mem _ member)
      rw [List.flatMap_cons]
      by_cases cut : sent.Cut
      · -- Behind a response that is cut short nothing goes out.
        have nothing : rest.flatMap Sent.written = [] := by
          rw [List.flatMap_eq_nil_iff]
          intro next member
          exact (written_nothing next (others next member)).mpr (behind next member cut)
        rw [nothing, List.append_nil]
        exact .truncated [] sent rest _ (written_front sent)
      · rw [written_uncut sent header cut]
        exact whole_cons sent rest _ (ih others later)

theorem whole_front (sends : List Sent) (bytes : List Byte) (whole : Whole sends bytes) :
    bytes <+: sends.flatMap Sent.response := by
  cases whole with
  | complete => exact List.prefix_rfl
  | truncated front sent back last short =>
      rw [List.flatMap_append, List.flatMap_cons, List.prefix_append_right_inj]
      exact short.trans (List.prefix_append _ _)

structure Logged (state : State R L) : Prop where
  bytes : ∀ conn, state.output conn = (state.sends conn).flatMap Sent.written
  headers : ∀ conn, ∀ sent ∈ state.sends conn, sent.header ≠ []

section Step
variable [DecidableEq R] [DecidableEq L] {config : Config} {state : State R L}

theorem moved_logged (logged : Logged state) (action : Action R L) (after : State R L)
    (moved : Moved config state action after) : Logged after := by
  have same (next : State R L) (kept : (next.output, next.sends) =
      (state.output, state.sends)) : Logged next := by
    simp only [Prod.mk.injEq] at kept
    constructor
    · rw [kept.1, kept.2]
      exact logged.bytes
    · rw [kept.2]
      exact logged.headers
  -- Only `send` writes to a connection, and what it writes is what it logs.
  cases moved with
  | create =>
      apply same
      rw [create_handle_eq]
      rfl
  | add | rearmSubmitted | rearmRejected =>
      apply same
      rw [add_input_fd_eq]
      rfl
  | drop place live released | release place live released =>
      apply same
      cases released <;> rfl
  | @send loader timestr headerPlan bodyPlan worker value own place live file =>
      constructor
      · intro conn
        by_cases mine : conn = own
        · subst mine
          simp [logged.bytes conn]
        · simp only [Function.update_of_ne mine]
          exact logged.bytes conn
      · intro conn sent member
        by_cases mine : conn = own
        · subst mine
          simp only [Function.update_self, List.mem_append, List.mem_singleton] at member
          rcases member with earlier | new
          · exact logged.headers conn sent earlier
          · subst new
            exact generate_nonempty timestr worker.reply.length
        · simp only [Function.update_of_ne mine] at member
          exact logged.headers conn sent member
  | _ => exact same _ rfl

end Step

section Runs
variable [DecidableEq R] [Fintype R] [DecidableEq L] {config : Config}

theorem reachable_logged (state : State R L) (reached : Running config state) :
    Logged state := by
  refine reached.invariant Logged ?_ ?_
  · intro state start
    subst start
    exact ⟨fun _ => rfl, fun _ _ member => by cases member⟩
  · intro before action after _ _ logged ran
    exact moved_logged logged action after (step_moved config before after action ran)

/-- A connection's stream is one of whole responses exactly when no response behind
one that is cut short gets a byte out. -/
theorem reply_stream (state : State R L) (reached : Running config state) (conn : ConnId) :
    Streams state conn ↔ StaysBlocked (state.sends conn) := by
  have logged := reachable_logged state reached
  have headers := logged.headers conn
  constructor
  · intro streams
    exact (silent_iff _ headers).mp streams.silent
  · intro blocked
    refine ⟨?_, (silent_iff _ headers).mpr blocked⟩
    rw [logged.bytes]
    exact whole_of_blocked _ headers blocked

end Runs

theorem reply_stream_blocked : ∃ state : State (Fin 1) (Fin 1),
    ((state.sends 0).length = 3 ∧ ∃ sent ∈ state.sends 0, sent.ret = -3) ∧ Streams state 0 := by
  obtain ⟨state, reached, shown⟩ := Transition.exec_reaches
    (.start rfl : Running sample (State.initial sample (Fin 1) (Fin 1)))
    (connect 0 5 ++ request 0 5 0 ++ request 0 5 0 ++ request 0 5 0 ++
      [.get 0, .send 0 [] [.wrote 60, .wrote 24] [.wrote 21], .release 0,
        .get 0, .send 0 [] [.wrote 84] [.wrote 5, .wrote (-1)], .release 0,
        .get 0, .send 0 [] [.timeout] [], .release 0])
    (fun state => decide ((state.sends 0).length = 3 ∧ (∃ sent ∈ state.sends 0, sent.ret = -3) ∧
      StaysBlocked (state.sends 0)))
    (by decide +kernel)
  obtain ⟨three, failed, blocked⟩ := of_decide_eq_true shown
  exact ⟨state, ⟨three, failed⟩, (reply_stream state reached 0).mpr blocked⟩

/-- The first response stops after five bytes, the next one follows whole. -/
theorem response_behind_truncated :
    ∃ state : State (Fin 1) (Fin 1), Running sample state ∧ ¬ Streams state 0 := by
  obtain ⟨state, reached, shown⟩ := Transition.exec_reaches
    (.start rfl : Running sample (State.initial sample (Fin 1) (Fin 1)))
    (connect 0 5 ++ request 0 5 0 ++ request 0 5 0 ++
      [.get 0, .send 0 [] [.wrote 5, .timeout] [], .release 0,
        .get 0, .send 0 [] [.wrote 1024] [.wrote 1024]])
    (fun state => decide (¬ state.output 0 <+: (state.sends 0).flatMap Sent.response))
    (by decide +kernel)
  refine ⟨state, reached, ?_⟩
  intro streams
  exact of_decide_eq_true shown (whole_front _ _ streams.whole)

end AsrServer.ReplyStream
