import Mathlib.Data.List.Infix
import AsrServer.WorkerStore

/-!
`replace` against one pass over the string. The loop searches the rewritten string from its
beginning, so it can find the pattern where the pass does not: in a replacement, or across
its ends.
-/

namespace AsrServer.ReplaceAll

open Bytes WorkerStore

/-- The occurrences from the left, one behind the other, replaced in one pass. -/
def pass (lst rst str : List Byte) : List Byte :=
  if lst = [] then str
  else
    match _found : str.dropInfix? lst with
    | none => str
    | some (before, after) => before ++ rst ++ pass lst rst after
termination_by str.length
decreasing_by
  have split := Occurrence.split_text _ _ _ _ _found
  have positive := List.length_pos_iff.mpr ‹¬ lst = []›
  rw [split, List.length_append, List.length_append]
  omega

def Returns (lst rst str result : List Byte) : Prop :=
  ∃ fuel, replace_loop lst rst fuel str = .ok result

def Replaces (lst rst str : List Byte) : Prop := Returns lst rst str (pass lst rst str)

/-- Along the pass, with the string replaced so far in `front`: the pattern is found where
the pass is, or replacing it where it is found comes to the same, and nothing is found at
the end. -/
inductive Undisturbed (lst rst : List Byte) : List Byte → List Byte → Prop where
  | done (front rest : List Byte) (absent : ¬ lst <:+: front ++ rest) :
      Undisturbed lst rst front rest
  | next (front rest before after : List Byte)
      (found : rest.dropInfix? lst = some (before, after))
      (first : ∀ left right, (front ++ before ++ lst).dropInfix? lst = some (left, right) →
        left ++ rst ++ right = front ++ before ++ rst)
      (later : Undisturbed lst rst (front ++ before ++ rst) after) :
      Undisturbed lst rst front rest

def Bordered (lst : List Byte) : Prop :=
  ∃ border, border ≠ [] ∧ border ≠ lst ∧ border <+: lst ∧ border <:+ lst

section Pattern

variable (lst rst : List Byte)

/-! The loop and the pass. -/

theorem infix_found (str : List Byte) :
    str.dropInfix? lst = none ↔ ¬ lst <:+: str := by
  rw [Occurrence.split_none_iff]
  exact ⟨fun absent inside => inside.elim fun left ⟨right, same⟩ => absent left right same.symm,
    fun absent left right same => absent ⟨left, right, same.symm⟩⟩

theorem returns_none (str result : List Byte) (missing : str.dropInfix? lst = none) :
    Returns lst rst str result ↔ result = str := by
  constructor
  · rintro ⟨fuel, ran⟩
    cases fuel with
    | zero => cases ran
    | succ fuel =>
        rw [replace_loop, find, missing] at ran
        exact (Except.ok.inj ran).symm
  · rintro rfl
    exact ⟨1, by rw [replace_loop, find, missing]⟩

theorem returns_found (str left right result : List Byte)
    (found : str.dropInfix? lst = some (left, right)) :
    Returns lst rst str result ↔ Returns lst rst (left ++ rst ++ right) result := by
  constructor
  · rintro ⟨fuel, ran⟩
    cases fuel with
    | zero => cases ran
    | succ fuel =>
        rw [replace_found lst rst fuel str left right found] at ran
        exact ⟨fuel, ran⟩
  · rintro ⟨fuel, ran⟩
    exact ⟨fuel + 1, by rw [replace_found lst rst fuel str left right found, ran]⟩

theorem returns_ind (holds : List Byte → Prop) (result str : List Byte)
    (stop : result.dropInfix? lst = none → holds result)
    (turn : ∀ left right, holds (left ++ rst ++ right) → holds (left ++ lst ++ right))
    (returns : Returns lst rst str result) : holds str := by
  obtain ⟨fuel, ran⟩ := returns
  induction fuel generalizing str with
  | zero => cases ran
  | succ fuel ih =>
      cases found : str.dropInfix? lst with
      | none =>
          have same := (returns_none lst rst str result found).mp ⟨fuel + 1, ran⟩
          subst same
          exact stop found
      | some parts =>
          rw [replace_found lst rst fuel str parts.1 parts.2 found] at ran
          rw [Occurrence.split_text _ _ _ _ found]
          exact turn parts.1 parts.2 (ih _ ran)

theorem returns_free (str result : List Byte) (returns : Returns lst rst str result) :
    ¬ lst <:+: result :=
  returns_ind lst rst (fun _ => ¬ lst <:+: result) result str (infix_found lst result).mp
    (fun _ _ free => free) returns

theorem returns_shorter (str result : List Byte) (shorter : rst.length < lst.length)
    (returns : Returns lst rst str result) : result = str ∨ result.length < str.length := by
  apply returns_ind lst rst (fun str => result = str ∨ result.length < str.length) result str
    (fun _ => .inl rfl) _ returns
  intro left right before
  right
  rcases before with rfl | less
  · simp only [List.length_append]
    omega
  · simp only [List.length_append] at less ⊢
    omega

theorem pass_none (str : List Byte) (missing : str.dropInfix? lst = none) :
    pass lst rst str = str := by
  rw [pass]
  split
  · rfl
  · split
    · rfl
    · rename_i found
      rw [missing] at found
      cases found

theorem pass_found (solid : lst ≠ []) (str before after : List Byte)
    (found : str.dropInfix? lst = some (before, after)) :
    pass lst rst str = before ++ rst ++ pass lst rst after := by
  rw [pass, if_neg solid]
  split
  · rename_i missing
    rw [found] at missing
    cases missing
  · rename_i other
    rw [found] at other
    cases other
    rfl

theorem last_found (base : List Byte) :
    ∃ left right, (base ++ lst).dropInfix? lst = some (left, right) := by
  have occurs : (base ++ lst).dropInfix? lst ≠ none := fun missing =>
    (infix_found lst _).mp missing (List.suffix_append _ _).isInfix
  obtain ⟨⟨left, right⟩, here⟩ := Option.ne_none_iff_exists'.mp occurs
  exact ⟨left, right, here⟩

/-! Where the pass is followed. -/

theorem undisturbed_returns (solid : lst ≠ []) (front rest : List Byte)
    (undisturbed : Undisturbed lst rst front rest) :
    Returns lst rst (front ++ rest) (front ++ pass lst rst rest) := by
  induction undisturbed with
  | done front rest absent =>
      have inside : ¬ lst <:+: rest := fun within =>
        absent (within.trans (List.suffix_append front rest).isInfix)
      rw [pass_none lst rst rest ((infix_found lst rest).mpr inside),
        returns_none lst rst _ _ ((infix_found lst _).mpr absent)]
  | next front rest before after found first later ih =>
      have split := Occurrence.split_text _ _ _ _ found
      obtain ⟨left, right, here⟩ := last_found lst (front ++ before)
      have whole := Occurrence.split_append _ _ _ _ after here
      rw [pass_found lst rst solid rest before after found, split, ← List.append_assoc,
        ← List.append_assoc, returns_found lst rst _ _ _ _ whole, ← List.append_assoc,
        first left right here]
      simpa only [List.append_assoc] using ih

/-! Where the pattern is found too early. -/

def Wrong (same : List Byte) (c e : Byte) (result str : List Byte) : Prop :=
  ∃ front rest more, str = front ++ same ++ c :: rest ∧ result = front ++ same ++ e :: more

theorem first_difference (one other : List Byte) (apart : ¬ one <+: other)
    (also : ¬ other <+: one) :
    ∃ same c e rest more, c ≠ e ∧ one = same ++ c :: rest ∧ other = same ++ e :: more := by
  induction one generalizing other with
  | nil => exact absurd List.nil_prefix apart
  | cons c rest ih =>
      cases other with
      | nil => exact absurd List.nil_prefix also
      | cons e more =>
          by_cases equal : c = e
          · subst equal
            rw [List.cons_prefix_cons, not_and] at apart also
            obtain ⟨same, left, right, behind, ahead, different, rfl, rfl⟩ :=
              ih more (apart rfl) (also rfl)
            exact ⟨c :: same, left, right, behind, ahead, different, rfl, rfl⟩
          · exact ⟨[], c, e, rest, more, equal, rfl, rfl⟩

/-- A turn leaves such a place in the string: in the replacement there is one, and one that
it takes out is behind that. -/
theorem wrong_turn (same : List Byte) (c e : Byte) (tail last : List Byte) (different : c ≠ e)
    (ours : rst = same ++ c :: tail) (theirs : lst = same ++ e :: last)
    (result left right : List Byte) (free : ¬ lst <:+: result)
    (wrong : Wrong same c e result (left ++ lst ++ right)) :
    Wrong same c e result (left ++ rst ++ right) := by
  obtain ⟨front, rest, more, split, rfl⟩ := wrong
  rw [List.append_assoc left] at split
  rcases List.append_eq_append_iff.mp split with ⟨x, inside, behind⟩ | ⟨x, rfl, behind⟩
  · -- The pattern begins ahead of the place, and takes it out or ends ahead of it.
    rcases List.append_eq_append_iff.mp behind with ⟨y, ends, _⟩ | ⟨y, reaches, ahead⟩
    · exact absurd ⟨left, y ++ e :: more, by rw [inside, ends]; simp⟩ free
    · cases y with
      | nil =>
          rw [List.append_nil] at reaches
          exact absurd ⟨left, e :: more, by rw [inside, reaches]⟩ free
      | cons first y =>
          rw [List.cons_append, List.cons.injEq] at ahead
          obtain ⟨rfl, _⟩ := ahead
          rw [theirs] at reaches
          rcases List.append_eq_append_iff.mp reaches with ⟨u, long, other⟩ | ⟨u, short, other⟩
          · cases u with
            | nil => exact absurd (List.cons.inj other).1.symm different
            | cons second u =>
                -- The place moves to that of the replacement.
                rw [List.cons_append, List.cons.injEq] at other
                obtain ⟨rfl, _⟩ := other
                refine ⟨left, tail ++ right, u ++ e :: more, ?_, ?_⟩
                · rw [ours]
                  simp
                · rw [inside, long]
                  simp
          · cases u with
            | nil => exact absurd (List.cons.inj other).1 different
            | cons second u =>
                -- The replacement begins as the pattern does, up to the place and beyond it.
                rw [List.cons_append, List.cons.injEq] at other
                obtain ⟨rfl, _⟩ := other
                refine ⟨front, u ++ c :: tail ++ right, more, ?_, rfl⟩
                rw [ours, inside, short]
                simp
  · -- It begins there or behind it.
    cases x with
    | nil =>
        rw [theirs] at behind
        cases same with
        | nil => exact absurd (List.cons.inj behind).1 different
        | cons first same =>
            rw [List.nil_append, List.cons_append, List.cons_append, List.cons.injEq] at behind
            obtain ⟨rfl, _⟩ := behind
            refine ⟨front, same ++ c :: tail ++ right, more, ?_, rfl⟩
            rw [ours]
            simp
    | cons first x =>
        rw [List.cons_append, List.cons.injEq] at behind
        obtain ⟨rfl, _⟩ := behind
        exact ⟨front, x ++ rst ++ right, more, by simp, rfl⟩

theorem wrong_lost (same : List Byte) (c e : Byte) (tail last : List Byte) (different : c ≠ e)
    (ours : rst = same ++ c :: tail) (theirs : lst = same ++ e :: last) (str result : List Byte)
    (wrong : Wrong same c e result str) : ¬ Returns lst rst str result := by
  intro returns
  have free := returns_free lst rst str result returns
  refine returns_ind lst rst (fun str => ¬ Wrong same c e result str) result str ?_ ?_ returns
    wrong
  · rintro _ ⟨front, rest, more, one, other⟩
    have same := List.append_cancel_left (one.symm.trans other)
    exact different (List.cons.inj same).1
  · intro left right kept found
    exact kept (wrong_turn lst rst same c e tail last different ours theirs result left right free
      found)

/-- A pattern found too early has a border, and replacing it there is not put right unless
the replacement begins the pattern. -/
theorem early_lost (base left right after more : List Byte)
    (exempt : ¬ (rst <+: lst ∧ rst ≠ lst ∧ Bordered lst))
    (found : (base ++ lst).dropInfix? lst = some (left, right))
    (early : left ++ rst ++ right ≠ base ++ rst) (free : ¬ lst <:+: base ++ rst ++ more) :
    ¬ Returns lst rst (left ++ rst ++ (right ++ after)) (base ++ rst ++ more) := by
  have split := Occurrence.split_text _ _ _ _ found
  rw [List.append_assoc] at split
  rcases List.append_eq_append_iff.mp split with ⟨x, inside, behind⟩ | ⟨t, inside, behind⟩
  · -- Behind its own place it would be longer than what is left.
    have lengths := congrArg List.length behind
    simp only [List.length_append] at lengths
    obtain rfl : x = [] := List.eq_nil_of_length_eq_zero (by omega)
    obtain rfl : right = [] := List.eq_nil_of_length_eq_zero (by omega)
    exact absurd (by rw [inside, List.append_nil, List.append_nil]) early
  · rcases List.append_eq_append_iff.mp behind.symm with ⟨v, starts, ends⟩ | ⟨v, ahead, _⟩
    · have nonempty : t ≠ [] := by
        rintro rfl
        rw [List.nil_append, List.append_right_eq_self] at behind
        exact early (by rw [inside, behind, List.append_nil, List.append_nil])
      have bordered : Bordered lst := by
        refine ⟨v, ?_, ?_, ⟨right, ends.symm⟩, ⟨t, starts.symm⟩⟩
        · rintro rfl
          rw [List.append_nil] at starts
          exact free ⟨left, rst ++ more, by rw [inside, starts]; simp⟩
        · rintro rfl
          exact nonempty (List.self_eq_append_left.mp starts)
      have other : ¬ lst <+: rst := by
        rintro ⟨rest, rfl⟩
        exact free ⟨base, rest ++ more, by simp⟩
      obtain ⟨same, c, e, tail, last, different, ours, theirs⟩ :=
        first_difference rst lst (fun begins => exempt ⟨begins, fun same =>
          other (same ▸ List.prefix_refl _), bordered⟩) other
      apply wrong_lost lst rst same c e tail last different ours theirs
      -- The pattern's own front is longer than what it shares with the replacement.
      have short : same ++ [e] <+: t ++ lst := by
        rw [← behind, theirs]
        exact ⟨last ++ right, by simp⟩
      have long : t ++ same <+: t ++ lst := ⟨e :: last, by rw [theirs]; simp⟩
      have within := List.prefix_of_prefix_length_le short long (by
        have positive := List.length_pos_iff.mpr nonempty
        simp only [List.length_append, List.length_singleton]
        omega)
      obtain ⟨x, goes⟩ := within
      refine ⟨left, tail ++ (right ++ after), x ++ c :: tail ++ more, ?_, ?_⟩
      · rw [ours]
        simp
      · calc base ++ rst ++ more = left ++ (t ++ same) ++ c :: tail ++ more := by
              rw [inside, ours]
              simp
          _ = left ++ same ++ e :: (x ++ c :: tail ++ more) := by
              rw [← goes]
              simp
    · -- All of it stands ahead of its own place, and so in the result.
      exact absurd ⟨left, v ++ rst ++ more, by rw [inside, ahead]; simp⟩ free

theorem undisturbed_of_returns (solid : lst ≠ [])
    (exempt : ¬ (rst <+: lst ∧ rst ≠ lst ∧ Bordered lst)) (front rest : List Byte)
    (returns : Returns lst rst (front ++ rest) (front ++ pass lst rst rest)) :
    Undisturbed lst rst front rest := by
  have free := returns_free lst rst _ _ returns
  -- Along the pass; what is replaced so far is in `front`.
  fun_induction pass lst rst rest generalizing front with
  | case1 rest empty => exact absurd empty solid
  | case2 rest _ missing => exact .done front rest free
  | case3 rest _ before after found ih =>
      have split := Occurrence.split_text _ _ _ _ found
      have regroup : front ++ (before ++ rst ++ pass lst rst after) =
          front ++ before ++ rst ++ pass lst rst after := by simp
      rw [regroup] at returns free
      rw [split, ← List.append_assoc, ← List.append_assoc] at returns
      have follows : ∀ left right, (front ++ before ++ lst).dropInfix? lst = some (left, right) →
          left ++ rst ++ right = front ++ before ++ rst := by
        intro left right here
        -- A pattern found earlier would leave a difference that no later turn takes back.
        by_contra early
        have whole := Occurrence.split_append _ _ _ _ after here
        rw [returns_found lst rst _ _ _ _ whole] at returns
        exact early_lost lst rst (front ++ before) left right after _ exempt here early free
          returns
      refine .next front rest before after found follows (ih _ ?_ free)
      obtain ⟨left, right, here⟩ := last_found lst (front ++ before)
      have whole := Occurrence.split_append _ _ _ _ after here
      rw [returns_found lst rst _ _ _ _ whole, ← List.append_assoc, follows left right here]
        at returns
      exact returns

/-- Where `replace` agrees with the pass on every string, with a shorter replacement, it
follows the pass: the string up to the occurrence would show a difference. -/
theorem undisturbed_of_always (solid : lst ≠ []) (shorter : rst.length < lst.length)
    (always : ∀ str, Replaces lst rst str) (front done rest : List Byte)
    (reached : ∀ more result, Returns lst rst (done ++ more) result ↔
      Returns lst rst (front ++ more) result)
    (passed : ∀ more, pass lst rst (done ++ more) = front ++ pass lst rst more) :
    Undisturbed lst rst front rest := by
  -- Along the pass; `done` is what has been read of the string and `front` what became of it.
  fun_induction pass lst rst rest generalizing front done with
  | case1 rest empty => exact absurd empty solid
  | case2 rest _ missing =>
      have whole := always (done ++ rest)
      rw [Replaces, reached, passed, pass_none lst rst rest missing] at whole
      exact .done front rest (returns_free lst rst _ _ whole)
  | case3 rest _ before after found ih =>
      obtain ⟨split, least⟩ := (Occurrence.split_iff _ _ _ _).mp found
      have alone (more : List Byte) :
          (before ++ lst ++ more).dropInfix? lst = some (before, more) := by
        apply Occurrence.split_of_first
        intro left right same
        have lengths := congrArg List.length same
        have first := least left (right ++ after) (by rw [split, same]; simp)
        simp only [List.length_append] at lengths
        exact List.eq_nil_of_length_eq_zero (by omega)
      obtain ⟨left, right, here⟩ := last_found lst (front ++ before)
      -- The string that ends with this occurrence: a further turn would make it too short.
      have follows : left ++ rst ++ right = front ++ before ++ rst := by
        have whole := always (done ++ (before ++ lst ++ []))
        rw [Replaces, reached, passed, pass_found lst rst solid _ before [] (alone []),
          pass_none lst rst [] ((infix_found lst []).mpr (by simpa using solid)),
          List.append_nil, List.append_nil, ← List.append_assoc, ← List.append_assoc,
          returns_found lst rst _ _ _ _ here] at whole
        rcases returns_shorter lst rst _ _ shorter whole with same | less
        · exact same.symm
        · have lengths := congrArg List.length (Occurrence.split_text _ _ _ _ here)
          simp only [List.length_append] at less lengths
          omega
      refine .next front rest before after found ?_ (ih (front ++ before ++ rst)
        (done ++ before ++ lst) ?_ ?_)
      · intro first last also
        rw [here, Option.some.injEq, Prod.mk.injEq] at also
        rw [← also.1, ← also.2]
        exact follows
      · intro more result
        have turn := returns_found lst rst _ _ _ result
          (Occurrence.split_append _ _ _ _ more here)
        rw [← List.append_assoc, follows] at turn
        rw [← turn, List.append_assoc, List.append_assoc, reached, List.append_assoc,
          List.append_assoc]
      · intro more
        rw [List.append_assoc, List.append_assoc, passed, ← List.append_assoc before,
          pass_found lst rst solid _ before more (alone more)]
        simp

/-- `replace` agrees with the pass where it follows it. Where it does not follow it, it
differs, unless the replacement is a proper front of a pattern with a border; also then it
differs for some string. -/
theorem replaces_iff (solid : lst ≠ []) :
    (∀ str, Undisturbed lst rst [] str → Replaces lst rst str) ∧
      (¬ (rst <+: lst ∧ rst ≠ lst ∧ Bordered lst) →
        ∀ str, Replaces lst rst str → Undisturbed lst rst [] str) ∧
      ((∀ str, Replaces lst rst str) → ∀ str, Undisturbed lst rst [] str) := by
  have follows : ¬ (rst <+: lst ∧ rst ≠ lst ∧ Bordered lst) →
      ∀ str, Replaces lst rst str → Undisturbed lst rst [] str := fun exempt str replaces =>
    undisturbed_of_returns lst rst solid exempt [] str replaces
  refine ⟨fun str undisturbed => undisturbed_returns lst rst solid [] str undisturbed, follows, ?_⟩
  intro always str
  by_cases exempt : rst <+: lst ∧ rst ≠ lst ∧ Bordered lst
  · have shorter : rst.length < lst.length :=
      Nat.lt_of_le_of_ne exempt.1.length_le (fun same =>
        exempt.2.1 (exempt.1.eq_of_length same))
    exact undisturbed_of_always lst rst solid shorter always [] [] str (fun _ _ => Iff.rfl)
      (fun _ => rfl)
  · exact follows exempt str (always str)

end Pattern

theorem replaces_example : Replaces (text "\n") (text " ") (text "a\nb") := by
  have after : ¬ text "\n" <:+: text "a" ++ text " " ++ text "b" := by
    rw [← infix_found]
    decide
  have undisturbed : Undisturbed (text "\n") (text " ") [] (text "a\nb") := by
    refine .next [] (text "a\nb") (text "a") (text "b") (by decide) ?_ (.done _ _ after)
    intro left right found
    have here : ([] ++ text "a" ++ text "\n").dropInfix? (text "\n") = some (text "a", []) := by
      decide
    rw [here, Option.some.injEq, Prod.mk.injEq] at found
    rw [← found.1, ← found.2]
    rfl
  exact (replaces_iff (text "\n") (text " ") (by decide)).1 _ undisturbed

/-- The replacement holds the pattern, and the loop does not end. -/
theorem replacement_grows : ¬ Replaces (text "a") (text "aa") (text "a") := by
  intro replaces
  have free := returns_free _ _ _ _ replaces
  rw [pass_found (text "a") (text "aa") (by decide) (text "a") [] [] (by decide), ← infix_found,
    pass_none (text "a") (text "aa") [] (by decide)] at free
  exact absurd free (by decide)

/-- A pattern of one character that is not in the replacement, as in the call of
`parse_worker`. -/
theorem character_replaced (char : Byte) (rst str : List Byte) (other : char ∉ rst) :
    Replaces [char] rst str := by
  have undisturbed (front rest : List Byte) (clear : char ∉ front) :
      Undisturbed [char] rst front rest := by
    fun_induction pass [char] rst rest generalizing front with
    | case1 rest empty => cases empty
    | case2 rest _ missing =>
        rw [infix_found, List.singleton_infix_iff] at missing
        refine .done front rest ?_
        rw [List.singleton_infix_iff, List.mem_append]
        exact fun either => either.elim clear missing
    | case3 rest _ before after found ih =>
        obtain ⟨split, least⟩ := (Occurrence.split_iff _ _ _ _).mp found
        have ahead : char ∉ before := by
          intro member
          obtain ⟨left, right, rfl⟩ := List.append_of_mem member
          have first := least left (right ++ [char] ++ after) (by rw [split]; simp)
          rw [List.length_append, List.length_cons] at first
          omega
        have base : char ∉ front ++ before := by
          rw [List.mem_append]
          exact fun either => either.elim clear ahead
        have here := Occurrence.split_apart [char] (front ++ before) [] (by simp)
          (by simpa using base)
        rw [List.append_nil] at here
        refine .next front rest before after found ?_ (ih _ ?_)
        · intro left right also
          rw [here, Option.some.injEq, Prod.mk.injEq] at also
          rw [← also.1, ← also.2, List.append_nil]
        · rw [List.mem_append]
          exact fun either => either.elim base other
  exact undisturbed_returns [char] rst (by simp) [] str (undisturbed [] str (by simp))

end AsrServer.ReplaceAll
