import Mathlib.Data.List.Forall2
import AsrServer.Bytes

/-!
`split`: the parts of a string between the occurrences of a delimiter. An empty part is
given as the delimiter itself, but for one place that `src.size() - 1` names; a last part
that is empty or a line end is not given.
-/

namespace AsrServer.Split

open Bytes

/-- What is left behind the last delimiter. -/
def last_one (rest : List Byte) : List (List Byte) :=
  if rest ≠ [] ∧ rest ≠ text "\r" ∧ rest ≠ text "\n" then [rest] else []

/-- The loop, on the string from `last_search_position` on. -/
def split_loop (delimit : List Byte) (solid : delimit ≠ []) (src : List Byte) :
    List (List Byte) :=
  match _found : src.dropInfix? delimit with
  | none => last_one src
  | some (before, after) =>
      (if before = [] then if src.length - 1 ≠ 0 then [delimit] else [] else [before]) ++
        split_loop delimit solid after
termination_by src.length
decreasing_by
  have split := Occurrence.split_text _ _ _ _ _found
  have positive := List.length_pos_iff.mpr solid
  rw [split, List.length_append, List.length_append]
  omega

def split (src delimit : List Byte) : List (List Byte) :=
  if empty : src = [] ∨ delimit = [] then []
  else split_loop delimit (fun undelimited => empty (.inr undelimited)) src

/-- `split` into a key and a value; none is `false`. -/
def split_pair (src delimit : List Byte) : Option (List Byte × List Byte) :=
  let parts := split src delimit
  if parts.length < 2 then none else some (parts.getD 0 [], parts.getD 1 [])

def shown (delimit piece : List Byte) : List Byte := if piece = [] then delimit else piece

/-- The same parts, with each delimiter for the empty ones. -/
def Agree (one other : List Byte) : List (List Byte) → List (List Byte) → Prop :=
  List.Forall₂ fun part counterpart => part = counterpart ∨ (part = one ∧ counterpart = other)

def Apart (delimit : List Byte) (pieces : List (List Byte)) : Prop :=
  ∀ piece ∈ pieces, ∀ char ∈ delimit, char ∉ piece

instance (delimit : List Byte) (pieces : List (List Byte)) : Decidable (Apart delimit pieces) :=
  @List.decidableBAll _ _ (fun piece => List.decidableBAll (fun char => char ∉ piece) delimit)
    pieces

def kept (single : Prop) [Decidable single] : List (List Byte) → List (List Byte)
  | [] => []
  | [piece] => last_one piece
  | piece :: next :: rest =>
      if single ∧ piece = [] ∧ next = [] ∧ rest = [] then kept single (next :: rest)
      else piece :: kept single (next :: rest)

/-! The loop on joined pieces. -/

theorem no_delimit (delimit piece : List Byte) (solid : delimit ≠ [])
    (apart : ∀ char ∈ delimit, char ∉ piece) : piece.dropInfix? delimit = none := by
  rw [Occurrence.split_none_iff]
  rintro left right rfl
  obtain ⟨char, member⟩ := List.exists_mem_of_ne_nil delimit solid
  exact apart char member (by simp [member])

theorem split_loop_last (delimit piece : List Byte) (solid : delimit ≠ [])
    (apart : ∀ char ∈ delimit, char ∉ piece) :
    split_loop delimit solid piece = last_one piece := by
  rw [split_loop]
  split
  · rfl
  · rename_i found
    rw [no_delimit delimit piece solid apart] at found
    cases found

theorem split_loop_piece (delimit piece rest : List Byte) (solid : delimit ≠ [])
    (apart : ∀ char ∈ delimit, char ∉ piece) :
    split_loop delimit solid (piece ++ delimit ++ rest) =
      (if delimit.length = 1 ∧ piece = [] ∧ rest = [] then [] else [shown delimit piece]) ++
        split_loop delimit solid rest := by
  have first := Occurrence.split_apart delimit piece rest solid apart
  have positive := List.length_pos_iff.mpr solid
  rw [split_loop]
  split
  · rename_i missing
    rw [first] at missing
    cases missing
  · rename_i found
    rw [first] at found
    cases found
    congr 1
    by_cases empty : piece = []
    · subst empty
      rw [if_pos rfl, List.nil_append, List.length_append]
      have ends : delimit.length + rest.length - 1 ≠ 0 ↔
          ¬ (delimit.length = 1 ∧ ([] : List Byte) = [] ∧ rest = []) := by
        rw [← List.length_eq_zero_iff (l := rest)]
        simp only [true_and]
        omega
      simp only [ends, shown, ite_not, ↓reduceIte]
    · simp [empty, shown]

theorem join_empty_iff (delimit piece : List Byte) (rest : List (List Byte))
    (solid : delimit ≠ []) :
    delimit.intercalate (piece :: rest) = [] ↔ piece = [] ∧ rest = [] := by
  cases rest with
  | nil => simp
  | cons next rest => simp [List.intercalate_cons_cons, solid]

theorem split_loop_join (delimit : List Byte) (pieces : List (List Byte)) (solid : delimit ≠ [])
    (apart : Apart delimit pieces) :
    split_loop delimit solid (delimit.intercalate pieces) =
      (kept (delimit.length = 1) pieces).map (shown delimit) := by
  have last (piece : List Byte) : (last_one piece).map (shown delimit) = last_one piece := by
    unfold last_one
    split
    · rename_i given
      simp [shown, given.1]
    · rfl
  induction pieces with
  | nil =>
      rw [List.intercalate_nil, split_loop_last delimit [] solid (by simp)]
      rfl
  | cons piece pieces ih =>
      obtain ⟨own, others⟩ := List.forall_mem_cons.mp apart
      cases pieces with
      | nil => rw [List.intercalate_singleton, split_loop_last delimit piece solid own, kept, last]
      | cons next rest =>
          rw [List.intercalate_cons_cons, split_loop_piece delimit piece _ solid own, ih others,
            kept]
          simp only [join_empty_iff delimit next rest solid]
          split
          · rfl
          · rw [List.map_cons]
            rfl

theorem split_join (delimit : List Byte) (pieces : List (List Byte)) (solid : delimit ≠ [])
    (apart : Apart delimit pieces) :
    split (delimit.intercalate pieces) delimit =
      (kept (delimit.length = 1) pieces).map (shown delimit) := by
  rw [← split_loop_join delimit pieces solid apart, split]
  split
  · rename_i empty
    rw [empty.resolve_right solid, split_loop_last delimit [] solid (by simp)]
    rfl
  · rfl

theorem split_pair_join (delimit key value : List Byte) (solid : delimit ≠ [])
    (apart : Apart delimit [key, value]) :
    split_pair (delimit.intercalate [key, value]) delimit =
      if last_one value = [] then none else some (shown delimit key, value) := by
  rw [split_pair, split_join delimit _ solid apart]
  by_cases given : value ≠ [] ∧ value ≠ text "\r" ∧ value ≠ text "\n"
  · have last : last_one value = [value] := if_pos given
    have both : kept (delimit.length = 1) [key, value] = [key, value] := by
      rw [kept, if_neg (fun empty => given.1 empty.2.2.1), kept, last]
    rw [both, last]
    simp [shown, given.1]
  · have last : last_one value = [] := if_neg given
    rw [kept]
    split
    · simp [kept, last]
    · simp [kept, last]

/-! The pieces that a part is given for. -/

theorem kept_two (single : Prop) [Decidable single] (front : List (List Byte)) :
    kept single (front ++ [[], []]) = if single then front else front ++ [[]] := by
  induction front with
  | nil =>
      rw [List.nil_append, kept]
      simp [kept, last_one]
  | cons piece front ih =>
      have more : ∃ next later, front ++ [[], []] = next :: later ∧ later ≠ [] := by
        cases front with
        | nil => exact ⟨[], [[]], rfl, by simp⟩
        | cons next front => exact ⟨next, front ++ [[], []], rfl, by simp⟩
      obtain ⟨next, later, same, shown⟩ := more
      rw [List.cons_append, same, kept, if_neg (fun both => shown both.2.2.2), ← same, ih]
      split <;> rfl

theorem kept_other (single : Prop) [Decidable single] (pieces : List (List Byte))
    (other : ¬ [[], []] <:+ pieces) : kept single pieces = kept False pieces := by
  induction pieces with
  | nil => rfl
  | cons piece pieces ih =>
      cases pieces with
      | nil => rfl
      | cons next rest =>
          have later : ¬ [[], []] <:+ next :: rest := fun ends =>
            other (ends.trans (List.suffix_cons piece _))
          have apart : ¬ (piece = [] ∧ next = [] ∧ rest = []) := by
            rintro ⟨rfl, rfl, rfl⟩
            exact other (List.suffix_refl _)
          rw [kept, if_neg (fun both => apart both.2), kept, if_neg (fun both => apart both.2),
            ih later]

/-- The parts agree if and only if the pieces do not end with two empty ones, or both or
neither of the delimiters has one character. -/
theorem split_agrees_iff (pieces : List (List Byte)) (one other : List Byte)
    (first : one ≠ []) (second : other ≠ []) (apart : Apart one pieces)
    (also : Apart other pieces) :
    Agree one other (split (one.intercalate pieces) one) (split (other.intercalate pieces) other) ↔
      ([[], []] <:+ pieces → (one.length = 1 ↔ other.length = 1)) := by
  rw [split_join one pieces first apart, split_join other pieces second also]
  have same (words : List (List Byte)) :
      Agree one other (words.map (shown one)) (words.map (shown other)) := by
    rw [Agree, List.forall₂_map_left_iff, List.forall₂_map_right_iff, List.forall₂_same]
    intro word member
    by_cases empty : word = []
    · exact .inr ⟨if_pos empty, if_pos empty⟩
    · exact .inl (by rw [shown, shown, if_neg empty, if_neg empty])
  constructor
  · rintro agree ⟨front, rfl⟩
    have lengths := agree.length_eq
    rw [List.length_map, List.length_map, kept_two, kept_two] at lengths
    by_cases short : one.length = 1
    · by_cases long : other.length = 1
      · exact iff_of_true short long
      · simp [short, long] at lengths
    · by_cases long : other.length = 1
      · simp [short, long] at lengths
      · exact iff_of_false short long
  · intro equal
    by_cases ends : [[], []] <:+ pieces
    · simp only [equal ends]
      exact same _
    · rw [kept_other _ pieces ends, kept_other (other.length = 1) pieces ends]
      exact same _

theorem split_agrees_example :
    Agree (text ",") (text "=>") (split (text "a,,b") (text ","))
      (split (text "a=>=>b") (text "=>")) :=
  (split_agrees_iff [text "a", [], text "b"] (text ",") (text "=>") (by decide) (by decide)
    (by decide) (by decide)).mpr (by decide)

/-- Two empty pieces at the end give a part for a longer delimiter only. -/
theorem split_disagrees :
    ¬ Agree (text ",") (text "=>") (split ((text ",").intercalate [text "a", [], []]) (text ","))
      (split ((text "=>").intercalate [text "a", [], []]) (text "=>")) := by
  rw [split_join (text ",") _ (by decide) (by decide),
    split_join (text "=>") _ (by decide) (by decide)]
  intro agree
  exact absurd agree.length_eq (by decide)

end AsrServer.Split
