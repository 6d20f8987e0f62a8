import AsrServer.JsonReader

/-!
`Json::Path` and `get_json_string`. `makePath` goes over an expression segment by
segment; `strchr` finds the end of its own pattern, so a segment stops in front of a zero
byte, and the loop stays there for ever. `%` stands for an argument that
`get_json_string` never gives: nothing is looked up for it.
-/

namespace AsrServer.JsonPath

open Bytes RequestHeader JsonReader

inductive PathArgument where
  | index (index : Nat)
  | key (key : List Byte)
  deriving DecidableEq, Repr

/-- `!strchr("[.", c)`. -/
def inSegment (c : Byte) : Bool := c != 91 && c != 46 && c != 0

/-- `index = index * 10 + digit` in an `ArrayIndex`. -/
def arrayIndex (digits : List Byte) : Nat := decimal digits % 2 ^ 32

/-- One round of the loop of `makePath`: the arguments it adds, and what is left. -/
def path_round : List Byte → List PathArgument × List Byte
  | [] => ([], [])
  | c :: rest =>
      if c = 91 then
        if rest.head? = some 37 then ([], rest.drop 1)
        else ([.index (arrayIndex (rest.takeWhile isDigit))], (rest.dropWhile isDigit).drop 1)
      else if c = 37 ∨ c = 46 then ([], rest)
      else
        ([.key (cstr ((c :: rest).takeWhile inSegment))], (c :: rest).dropWhile inSegment)

def path_loop : Nat → List Byte → List PathArgument → Except Fault (List PathArgument)
  | 0, _, _ => .error .endless
  | fuel + 1, current, args =>
      if current = [] then .ok args
      else path_loop fuel (path_round current).2 (args ++ (path_round current).1)

def makePath (path : List Byte) : Except Fault (List PathArgument) :=
  path_loop (path.length + 1) path []

/-- `resolve`; none is the default value. -/
def resolve : Value → List PathArgument → Option Value
  | node, [] => some node
  | .array values, .index index :: args =>
      match values[index]? with
      | some node => resolve node args
      | none => none
  | .object members, .key key :: args =>
      match members.lookup key with
      | some node => resolve node args
      | none => none
  | _, _ :: _ => none

/-- `valueToString`. -/
def decimalText (value : Nat) : List Byte :=
  (Nat.toDigits 10 value).map fun digit => UInt8.ofNat digit.toNat

def asString : Value → Except Fault (List Byte)
  | .null => .ok []
  | .string value => .ok value
  | .boolean value => .ok (if value then text "true" else text "false")
  | .int value =>
      .ok (if value < 0 then 45 :: decimalText value.natAbs else decimalText value.natAbs)
  | .uint value => .ok (decimalText value)
  | .real shown => .ok shown
  | .array _ | .object _ => .error .exception

def get_json_string (root : Value) (path default : List Byte) : Except Fault (List Byte) := do
  let args ← makePath path
  match (resolve root args).getD (.string default) with
  | .object _ | .array _ => return []
  | value => asString value

/-! When the loop ends. -/

/-- Whether the text has opened an index that a zero byte would close: `[` and digits. -/
def indexOpen (left : List Byte) : Bool :=
  left.foldl (fun opened c => if opened then isDigit c else c == 91) false

/-- Every zero byte stands where a `]` is looked for. -/
def Safe (path : List Byte) : Prop :=
  ∀ left right, path = left ++ 0 :: right → indexOpen left = true

def safe : Bool → List Byte → Bool
  | _, [] => true
  | true, c :: rest => safe (isDigit c) rest
  | false, c :: rest => c != 0 && safe (c == 91) rest

theorem safe_iff (opened : Bool) (path : List Byte) :
    safe opened path = true ↔ ∀ left right, path = left ++ 0 :: right →
      left.foldl (fun opened c => if opened then isDigit c else c == 91) opened = true := by
  induction path generalizing opened with
  | nil => simp [safe]
  | cons c rest ih =>
      constructor
      · intro fine left right same
        cases left with
        | nil =>
            cases same
            cases opened
            · simp [safe] at fine
            · rfl
        | cons first left =>
            cases same
            cases opened
            · simp only [safe, Bool.and_eq_true] at fine
              exact (ih _).mp fine.2 left right rfl
            · exact (ih _).mp fine left right rfl
      · intro fine
        have later : ∀ state, (if opened then isDigit c else c == 91) = state →
            safe state rest = true := by
          intro state same
          apply (ih state).mpr
          intro left right split
          rw [← same]
          exact fine (c :: left) right (by rw [split]; rfl)
        cases opened with
        | false =>
            have nonzero : c ≠ 0 := by
              rintro rfl
              exact absurd (fine [] rest rfl) (by decide)
            simp only [safe, Bool.and_eq_true, bne_iff_ne]
            exact ⟨nonzero, later _ rfl⟩
        | true => exact later _ rfl

theorem safe_iff_Safe (path : List Byte) : safe false path = true ↔ Safe path :=
  safe_iff false path

theorem safe_index (rest : List Byte) :
    safe true rest = safe false ((rest.dropWhile isDigit).drop 1) := by
  induction rest with
  | nil => rfl
  | cons c rest ih =>
      cases digit : isDigit c with
      | true =>
          rw [List.dropWhile_cons_of_pos digit, ← ih, safe, digit]
      | false =>
          rw [List.dropWhile_cons_of_neg (by rw [digit]; decide), safe, digit]
          rfl

theorem safe_segment (current : List Byte) :
    safe false current = safe false (current.dropWhile inSegment) := by
  induction current with
  | nil => rfl
  | cons c rest ih =>
      cases inside : inSegment c with
      | true =>
          have plain := inside
          simp only [inSegment, Bool.and_eq_true, bne_iff_ne] at plain
          have closed : (c == 91) = false := beq_eq_false_iff_ne.mpr plain.1.1
          rw [List.dropWhile_cons_of_pos inside, ← ih, safe, closed, bne_iff_ne.mpr plain.2]
          rfl
      | false => rw [List.dropWhile_cons_of_neg (by rw [inside]; decide)]

theorem path_round_moves (c : Byte) (rest : List Byte) (nonzero : c ≠ 0) :
    (path_round (c :: rest)).2.length ≤ rest.length ∧
      safe false (path_round (c :: rest)).2 = safe false (c :: rest) := by
  unfold path_round
  dsimp only
  by_cases opens : c = 91
  · subst opens
    have start : safe false (91 :: rest) = safe true rest := rfl
    rw [if_pos rfl, start]
    by_cases argument : rest.head? = Option.some 37
    · rw [if_pos argument]
      cases rest with
      | nil => cases argument
      | cons percent rest =>
          cases argument
          exact ⟨Nat.le_succ _, rfl⟩
    · rw [if_neg argument, safe_index]
      have less := List.length_dropWhile_le isDigit rest
      refine ⟨?_, rfl⟩
      rw [List.length_drop]
      omega
  · rw [if_neg opens]
    by_cases separator : c = 37 ∨ c = 46
    · rw [if_pos separator]
      refine ⟨Nat.le_refl _, ?_⟩
      rcases separator with rfl | rfl
      · rfl
      · rfl
    · rw [if_neg separator]
      have inside : inSegment c = true := by
        simp only [inSegment, Bool.and_eq_true, bne_iff_ne]
        exact ⟨⟨opens, fun same => separator (Or.inr same)⟩, nonzero⟩
      rw [← safe_segment, List.dropWhile_cons_of_pos inside]
      exact ⟨List.length_dropWhile_le inSegment rest, rfl⟩

theorem path_loop_ends (fuel : Nat) (current : List Byte) (args : List PathArgument)
    (enough : current.length < fuel) (fine : safe false current = true) :
    ∃ more, path_loop fuel current args = .ok (args ++ more) := by
  induction fuel generalizing current args with
  | zero => exact absurd enough (Nat.not_lt_zero _)
  | succ fuel ih =>
      rw [path_loop]
      cases current with
      | nil => exact ⟨[], by simp⟩
      | cons c rest =>
          have nonzero : c ≠ 0 := by
            rintro rfl
            simp [safe] at fine
          obtain ⟨less, same⟩ := path_round_moves c rest nonzero
          rw [List.length_cons] at enough
          obtain ⟨more, ran⟩ := ih (path_round (c :: rest)).2 (args ++ (path_round (c :: rest)).1)
            (by omega) (by rw [same]; exact fine)
          refine ⟨(path_round (c :: rest)).1 ++ more, ?_⟩
          rw [if_neg (List.cons_ne_nil _ _), ran, List.append_assoc]

theorem path_loop_hangs (fuel : Nat) (current : List Byte) (args : List PathArgument)
    (stuck : safe false current = false) :
    path_loop fuel current args = .error .endless := by
  induction fuel generalizing current args with
  | zero => rfl
  | succ fuel ih =>
      cases current with
      | nil => cases stuck
      | cons c rest =>
          rw [path_loop, if_neg (List.cons_ne_nil _ _)]
          apply ih
          by_cases zero : c = 0
          · subst zero
            have stays : (path_round (0 :: rest)).2 = 0 :: rest := by
              simp [path_round, inSegment]
            rw [stays]
            exact stuck
          · rw [(path_round_moves c rest zero).2]
            exact stuck

theorem makePath_safe (path : List Byte) (fine : Safe path) : ∃ args, makePath path = .ok args := by
  obtain ⟨more, ran⟩ := path_loop_ends (path.length + 1) path [] (Nat.lt_succ_self _)
    ((safe_iff_Safe path).mpr fine)
  exact ⟨_, ran⟩

theorem makePath_stuck (path : List Byte) (stuck : ¬ Safe path) :
    makePath path = .error .endless := by
  apply path_loop_hangs
  rw [← safe_iff_Safe, Bool.not_eq_true] at stuck
  exact stuck

theorem get_json_string_safe (root : Value) (path default : List Byte) (fine : Safe path) :
    ∃ value, get_json_string root path default = .ok value := by
  obtain ⟨args, made⟩ := makePath_safe path fine
  unfold get_json_string
  rw [made]
  change ∃ value, (match (resolve root args).getD (.string default) with
    | .object _ | .array _ => Except.ok []
    | value => asString value) = .ok value
  cases (resolve root args).getD (.string default) with
  | object members => exact ⟨[], rfl⟩
  | array values => exact ⟨[], rfl⟩
  | null | int | uint | real | string | boolean => exact ⟨_, rfl⟩

theorem get_json_string_stuck (root : Value) (path default : List Byte) (stuck : ¬ Safe path) :
    get_json_string root path default = .error .endless := by
  unfold get_json_string
  rw [makePath_stuck path stuck]
  rfl

end AsrServer.JsonPath
