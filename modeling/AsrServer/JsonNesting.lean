import AsrServer.JsonReader
import AsrServer.Machine

/-!
The nesting of a document, by a machine that keeps the arrays and objects that are open
on a stack in place of the reader's calls. The reader throws exactly on the documents on
which the machine comes to expect a value inside 1000 of them; what stands behind an
error does not count, nor do brackets in strings and comments.
-/

namespace AsrServer.JsonNesting

open Bytes JsonReader Machine

/-- An open bracket; of an object, the name of the last member. -/
inductive Frame where
  | array
  | object (name : List Byte)
  deriving DecidableEq, Repr

/-- What comes next: a value, the name of a member, or what may follow a value. -/
inductive Phase where
  | value
  | name
  | follow
  deriving DecidableEq, Repr

structure Position where
  frames : List Frame
  phase : Phase
  rest : List Byte
  deriving DecidableEq, Repr

section Machine

variable (double : List Byte → Option (List Byte))

def stepValue (frames : List Frame) (rest : List Byte) : Option Position :=
  let (token, rest) := skipCommentTokens rest
  match token.type_ with
  | .tokenObjectBegin => some ⟨.object [] :: frames, .name, rest⟩
  | .tokenArrayBegin =>
      if (skipSpaces rest).head? = some 93 then some ⟨frames, .follow, (readToken rest).2⟩
      else some ⟨.array :: frames, .value, rest⟩
  | .tokenNumber => (decodeNumber double token).map fun _ => ⟨frames, .follow, rest⟩
  | .tokenString => (decodeString token).map fun _ => ⟨frames, .follow, rest⟩
  | .tokenTrue | .tokenFalse | .tokenNull => some ⟨frames, .follow, rest⟩
  | _ => none

def stepName (name : List Byte) (frames : List Frame) (rest : List Byte) : Option Position :=
  let (token, rest) := skipCommentTokens rest
  if token.type_ = .tokenObjectEnd ∧ name = [] then some ⟨frames, .follow, rest⟩
  else if token.type_ ≠ .tokenString then none
  else
    match decodeString token with
    | none => none
    | some name =>
        if (readToken rest).1.type_ ≠ .tokenMemberSeparator then none
        else some ⟨.object name :: frames, .value, (readToken rest).2⟩

def stepMember (name : List Byte) (frames : List Frame) (rest : List Byte) : Option Position :=
  let comma := (readToken rest).1
  if comma.type_ ≠ .tokenObjectEnd ∧ comma.type_ ≠ .tokenArraySeparator ∧
      comma.type_ ≠ .tokenComment then none
  else if (skipCommentTokens rest).1.type_ = .tokenObjectEnd then
    some ⟨frames, .follow, (skipCommentTokens rest).2⟩
  else some ⟨.object name :: frames, .name, (skipCommentTokens rest).2⟩

def stepElement (frames : List Frame) (rest : List Byte) : Option Position :=
  let (token, rest) := skipCommentTokens rest
  if token.type_ = .tokenArrayEnd then some ⟨frames, .follow, rest⟩
  else if token.type_ = .tokenArraySeparator then some ⟨.array :: frames, .value, rest⟩
  else none

def step : Position → Option Position
  | ⟨frames, .value, rest⟩ => stepValue double frames rest
  | ⟨.object name :: frames, .name, rest⟩ => stepName name frames rest
  | ⟨.object name :: frames, .follow, rest⟩ => stepMember name frames rest
  | ⟨.array :: frames, .follow, rest⟩ => stepElement frames rest
  | _ => none

def Deep (position : Position) : Prop :=
  position.phase = .value ∧ stackLimit_g ≤ position.frames.length

def TooDeep (document : List Byte) : Prop :=
  ∃ position, Run (step double) ⟨[], .value, document⟩ position ∧ Deep position

/-! The reader's calls against the machine. -/

/-- What a call of the reader says about the machine: where `frames` are left open when it
is successful. A call that is not has halted the machine, one that throws has seen it too
deep. -/
def Follows (start : Position) (frames : List Frame) : Read → Prop
  | .error .endless => True
  | .error .exception => ∃ last, RunWhile (step double) (¬ Deep ·) start last ∧ Deep last
  | .ok (none, _) => ∃ last, RunWhile (step double) (¬ Deep ·) start last ∧ ¬ Deep last ∧
      step double last = none
  | .ok (some _, rest) => RunWhile (step double) (¬ Deep ·) start ⟨frames, .follow, rest⟩

variable {double}

theorem Follows.prepend {first start : Position} {frames : List Frame} {read : Read}
    (follows : Follows double start frames read)
    (ran : RunWhile (step double) (¬ Deep ·) first start) : Follows double first frames read := by
  match read with
  | .error .endless => trivial
  | .error .exception =>
      obtain ⟨last, later, deep⟩ := follows
      exact ⟨last, ran.trans later, deep⟩
  | .ok (none, _) =>
      obtain ⟨last, later, ends⟩ := follows
      exact ⟨last, ran.trans later, ends⟩
  | .ok (some _, _) => exact ran.trans follows

theorem not_deep_of_phase {position : Position} (other : position.phase ≠ .value) :
    ¬ Deep position := fun deep => other deep.1

/-- A call that is over after an error, wherever the reader goes on from. -/
theorem Follows.recover {start last : Position} (frames : List Frame)
    (ran : RunWhile (step double) (¬ Deep ·) start last) (below : ¬ Deep last)
    (halts : step double last = none) (skipUntilToken : TokenType) (rest : List Byte) :
    Follows double start frames (recoverFromError skipUntilToken rest) := by
  have loop : ∀ fuel rest, Follows double start frames (recover_loop skipUntilToken fuel rest) := by
    intro fuel
    induction fuel with
    | zero => exact fun _ => trivial
    | succ fuel ih =>
        intro rest
        rw [recover_loop]
        split
        · exact ⟨last, ran, below, halts⟩
        · exact ih _
  exact loop _ _

theorem Follows.halt {start : Position} (frames : List Frame) (below : ¬ Deep start)
    (halts : step double start = none) (rest : List Byte) :
    Follows double start frames (.ok (none, rest)) :=
  ⟨start, .done start, below, halts⟩

theorem Follows.arrive {start : Position} {frames : List Frame} {rest : List Byte}
    (below : ¬ Deep start) (moved : step double start = some ⟨frames, .follow, rest⟩)
    (value : Value) : Follows double start frames (.ok (some value, rest)) :=
  .next below moved (.done _)

theorem Follows.bind {start : Position} {inner : List Frame} {read : Read}
    (follows : Follows double start inner read) (frames : List Frame)
    (skipUntilToken : TokenType) (later : Value → List Byte → Read)
    (goes : ∀ value rest, Follows double ⟨inner, .follow, rest⟩ frames (later value rest)) :
    Follows double start frames (read >>= fun pair =>
      match pair with
      | (none, rest) => recoverFromError skipUntilToken rest
      | (some value, rest) => later value rest) := by
  match read with
  | .error .endless => trivial
  | .error .exception => exact follows
  | .ok (none, rest) =>
      obtain ⟨last, ran, below, halts⟩ := follows
      exact .recover frames ran below halts skipUntilToken rest
  | .ok (some value, rest) => exact (goes value rest).prepend follows

theorem value_follows (fuel : Nat)
    (object : ∀ frames members name rest,
      Follows double ⟨.object name :: frames, .name, rest⟩ frames
        (readObject double fuel (frames.length + 1) members name rest))
    (array : ∀ frames values rest,
      Follows double ⟨.array :: frames, .value, rest⟩ frames
        (readArray double fuel (frames.length + 1) values rest))
    (frames : List Frame) (rest : List Byte) :
    Follows double ⟨frames, .value, rest⟩ frames
      (readValue double (fuel + 1) frames.length rest) := by
  rw [readValue]
  by_cases deep : stackLimit_g ≤ frames.length
  · rw [if_pos deep]
    exact ⟨_, .done _, rfl, deep⟩
  · have below : ¬ Deep ⟨frames, .value, rest⟩ := fun reached => deep reached.2
    have moved : step double ⟨frames, .value, rest⟩ = stepValue double frames rest := rfl
    rw [if_neg deep]
    unfold stepValue at moved
    -- The machine's step is by the same token; an open bracket leaves the rest to the other two
    -- calls.
    cases kind : (skipCommentTokens rest).1.type_ with
    | tokenObjectBegin =>
        simp only [kind] at moved ⊢
        exact (object _ _ _ _).prepend (.next below moved (.done _))
    | tokenArrayBegin =>
        simp only [kind] at moved ⊢
        split at moved
        · rename_i empty
          rw [if_pos empty]
          exact .arrive below moved _
        · rename_i nonempty
          rw [if_neg nonempty]
          exact (array _ _ _).prepend (.next below moved (.done _))
    | tokenNumber =>
        simp only [kind] at moved ⊢
        cases decoded : decodeNumber double (skipCommentTokens rest).1 with
        | none =>
            rw [decoded] at moved
            exact .halt frames below moved _
        | some value =>
            rw [decoded] at moved
            exact .arrive below moved value
    | tokenString =>
        simp only [kind] at moved ⊢
        cases decoded : decodeString (skipCommentTokens rest).1 with
        | none =>
            rw [decoded] at moved
            exact .halt frames below moved _
        | some value =>
            rw [decoded] at moved
            exact .arrive below moved (.string value)
    | tokenTrue | tokenFalse | tokenNull =>
        simp only [kind] at moved ⊢
        exact .arrive below moved _
    | _ =>
        simp only [kind] at moved ⊢
        exact .halt frames below moved _

theorem member_follows (fuel : Nat)
    (object : ∀ frames members name rest,
      Follows double ⟨.object name :: frames, .name, rest⟩ frames
        (readObject double fuel (frames.length + 1) members name rest))
    (frames : List Frame) (members : List (List Byte × Value)) (name rest : List Byte) :
    Follows double ⟨.object name :: frames, .follow, rest⟩ frames
      (if (readToken rest).1.type_ ≠ .tokenObjectEnd ∧
          (readToken rest).1.type_ ≠ .tokenArraySeparator ∧
          (readToken rest).1.type_ ≠ .tokenComment then
        recoverFromError .tokenObjectEnd (readToken rest).2
      else if (skipCommentTokens rest).1.type_ = .tokenObjectEnd then
        .ok (some (.object members), (skipCommentTokens rest).2)
      else readObject double fuel (frames.length + 1) members name (skipCommentTokens rest).2) := by
  have below : ¬ Deep ⟨.object name :: frames, .follow, rest⟩ := not_deep_of_phase (by simp)
  have moved : step double ⟨.object name :: frames, .follow, rest⟩ = stepMember name frames rest :=
    rfl
  unfold stepMember at moved
  dsimp only at moved
  split
  · rename_i wrong
    rw [if_pos wrong] at moved
    exact .recover frames (.done _) below moved _ _
  · rename_i separates
    rw [if_neg separates] at moved
    split
    · rename_i ends
      rw [if_pos ends] at moved
      exact .arrive below moved _
    · rename_i more
      rw [if_neg more] at moved
      exact (object _ _ _ _).prepend (.next below moved (.done _))

theorem object_follows (fuel : Nat)
    (value : ∀ frames rest, Follows double ⟨frames, .value, rest⟩ frames
      (readValue double fuel frames.length rest))
    (object : ∀ frames members name rest,
      Follows double ⟨.object name :: frames, .name, rest⟩ frames
        (readObject double fuel (frames.length + 1) members name rest))
    (frames : List Frame) (members : List (List Byte × Value)) (name rest : List Byte) :
    Follows double ⟨.object name :: frames, .name, rest⟩ frames
      (readObject double (fuel + 1) (frames.length + 1) members name rest) := by
  have below : ¬ Deep ⟨.object name :: frames, .name, rest⟩ := not_deep_of_phase (by simp)
  have moved : step double ⟨.object name :: frames, .name, rest⟩ = stepName name frames rest := rfl
  unfold stepName at moved
  rw [readObject]
  dsimp only at moved ⊢
  generalize skipCommentTokens rest = read at moved ⊢
  obtain ⟨token, rest⟩ := read
  by_cases closes : token.type_ = .tokenObjectEnd ∧ name = []
  · rw [if_pos closes] at moved ⊢
    exact .arrive below moved _
  · rw [if_neg closes] at moved ⊢
    by_cases nameless : token.type_ ≠ .tokenString
    · rw [if_pos nameless] at moved ⊢
      exact .recover frames (.done _) below moved _ _
    · rw [if_neg nameless] at moved ⊢
      cases decoded : decodeString token with
      | none =>
          rw [decoded] at moved
          exact .recover frames (.done _) below moved _ _
      | some name =>
          rw [decoded] at moved
          dsimp only at moved ⊢
          by_cases missing : (readToken rest).1.type_ ≠ .tokenMemberSeparator
          · rw [if_pos missing] at moved ⊢
            exact .recover frames (.done _) below moved _ _
          · rw [if_neg missing] at moved ⊢
            -- The name opens the value, and what follows the value is the member's end.
            apply Follows.prepend _ (.next below moved (.done _))
            apply (value (.object name :: frames) (readToken rest).2).bind
            intro value rest
            exact member_follows fuel object frames _ name rest

theorem array_follows (fuel : Nat)
    (value : ∀ frames rest, Follows double ⟨frames, .value, rest⟩ frames
      (readValue double fuel frames.length rest))
    (array : ∀ frames values rest,
      Follows double ⟨.array :: frames, .value, rest⟩ frames
        (readArray double fuel (frames.length + 1) values rest))
    (frames : List Frame) (values : List Value) (rest : List Byte) :
    Follows double ⟨.array :: frames, .value, rest⟩ frames
      (readArray double (fuel + 1) (frames.length + 1) values rest) := by
  rw [readArray]
  apply (value (.array :: frames) rest).bind
  intro value rest
  have below : ¬ Deep ⟨.array :: frames, .follow, rest⟩ := not_deep_of_phase (by simp)
  have moved : step double ⟨.array :: frames, .follow, rest⟩ = stepElement frames rest := rfl
  unfold stepElement at moved
  dsimp only at moved ⊢
  split
  · rename_i ends
    rw [if_pos ends] at moved
    exact .arrive below moved _
  · rename_i more
    rw [if_neg more] at moved
    split
    · rename_i separates
      rw [if_pos separates] at moved
      exact (array _ _ _).prepend (.next below moved (.done _))
    · rename_i wrong
      rw [if_neg wrong] at moved
      exact .recover frames (.done _) below moved _ _

variable (double) in
/-- Every call of the reader goes the way of the machine. -/
theorem reader_follows (fuel : Nat) :
    (∀ frames rest, Follows double ⟨frames, .value, rest⟩ frames
      (readValue double fuel frames.length rest)) ∧
    (∀ frames members name rest, Follows double ⟨.object name :: frames, .name, rest⟩ frames
      (readObject double fuel (frames.length + 1) members name rest)) ∧
    (∀ frames values rest, Follows double ⟨.array :: frames, .value, rest⟩ frames
      (readArray double fuel (frames.length + 1) values rest)) := by
  induction fuel with
  | zero => exact ⟨fun _ _ => trivial, fun _ _ _ _ => trivial, fun _ _ _ => trivial⟩
  | succ fuel ih =>
      obtain ⟨value, object, array⟩ := ih
      exact ⟨value_follows fuel object array, object_follows fuel value object,
        array_follows fuel value array⟩

/-- The reader throws exactly on the documents that are nested too deep. -/
theorem parse_throws_iff (document : List Byte) :
    parse double document = .error .exception ↔ TooDeep double document := by
  have follows := (reader_follows double (2 * document.length + 1)).1 [] document
  have ends := readValue_ends double (2 * document.length + 1) 0 document
    (Nat.le_refl _)
  unfold parse
  change Follows double _ [] (readValue double (2 * document.length + 1) 0 document) at follows
  generalize readValue double (2 * document.length + 1) 0 document = read at follows ends ⊢
  constructor
  · intro throws
    match read with
    | .error .exception =>
        obtain ⟨last, ran, deep⟩ := follows
        exact ⟨last, ran.run, deep⟩
  · rintro ⟨position, reached, deep⟩
    match read with
    | .error .exception => rfl
    | .ok (none, _) =>
        obtain ⟨last, ran, below, halts⟩ := follows
        exact absurd deep (ran.meets_all halts below reached)
    | .ok (some _, _) =>
        -- At the end of the document the machine halts too.
        exact absurd deep (follows.meets_all rfl (not_deep_of_phase (by simp)) reached)

variable (double) in
theorem parse_ends (document : List Byte) : parse double document ≠ .error .endless := by
  have ends := readValue_ends double (2 * document.length + 1) 0 document
    (Nat.le_refl _)
  unfold parse
  intro endless
  match read : readValue double (2 * document.length + 1) 0 document with
  | .error .endless =>
      rw [read] at ends
      exact ends
  | .error .exception =>
      rw [read] at endless
      cases endless
  | .ok _ =>
      rw [read] at endless
      cases endless

end Machine

end AsrServer.JsonNesting
