import Mathlib.Data.List.Basic

/-!
First occurrences of a pattern in a list, over Batteries' `dropInfix?`. The
rules say what happens to the first occurrence when the text is extended at
its end: a found split keeps its prefix, and a split that only appears after
the extension must end inside the added part. A reader that searches a growing
buffer uses exactly these two facts.
-/

namespace AsrServer.Occurrence

variable {α : Type*} [BEq α] [LawfulBEq α]

/-- The split at the first occurrence of `pattern`: no other occurrence
starts earlier. -/
theorem split_iff (text pattern before after : List α) :
    text.dropInfix? pattern = some (before, after) ↔
      text = before ++ pattern ++ after ∧
        ∀ left right, text = left ++ pattern ++ right → before.length ≤ left.length := by
  rw [List.dropInfix?_eq_some_iff]
  constructor
  · rintro ⟨⟨found, split, same⟩, first⟩
    rw [beq_iff_eq] at same
    subst found
    exact ⟨split, fun left right other => first left pattern right other (beq_self_eq_true _)⟩
  · rintro ⟨split, first⟩
    refine ⟨⟨pattern, split, beq_self_eq_true _⟩, ?_⟩
    intro left found right other same
    rw [beq_iff_eq] at same
    subst found
    exact first left right other

theorem split_text (text pattern before after : List α)
    (found : text.dropInfix? pattern = some (before, after)) :
    text = before ++ pattern ++ after :=
  ((split_iff text pattern before after).mp found).1

omit [LawfulBEq α] in
theorem go_isSome (pattern : List α) [LawfulBEq α] (left right seen : List α) :
    (List.dropInfix?.go pattern (left ++ pattern ++ right) seen).isSome := by
  induction left generalizing seen with
  | nil =>
      cases pattern with
      | nil => cases right <;> simp [List.dropInfix?.go, List.dropPrefix?]
      | cons first rest =>
          have head : ((first :: rest) ++ right).dropPrefix? (first :: rest) = some right := by
            rw [List.dropPrefix?_eq_some_iff]
            exact ⟨first :: rest, rfl, beq_self_eq_true _⟩
          simp only [List.cons_append] at head
          simp [List.dropInfix?.go, head]
  | cons first rest ih =>
      simp only [List.cons_append, List.dropInfix?.go]
      split
      · exact ih (first :: seen)
      · rfl

theorem split_none_iff (text pattern : List α) :
    text.dropInfix? pattern = none ↔ ∀ left right, text ≠ left ++ pattern ++ right := by
  constructor
  · intro missing left right occurs
    have there := go_isSome pattern left right []
    rw [← occurs] at there
    change (text.dropInfix? pattern).isSome at there
    rw [missing] at there
    cases there
  · intro absent
    cases found : text.dropInfix? pattern with
    | none => rfl
    | some parts =>
        exact absurd (split_text text pattern parts.1 parts.2 found) (absent _ _)

theorem split_append (text pattern before after more : List α)
    (found : text.dropInfix? pattern = some (before, after)) :
    (text ++ more).dropInfix? pattern = some (before, after ++ more) := by
  obtain ⟨split, first⟩ := (split_iff text pattern before after).mp found
  rw [split_iff]
  refine ⟨by simp [split], ?_⟩
  intro left right other
  by_contra earlier
  have lengths := congrArg List.length split
  simp only [List.length_append] at lengths
  -- An earlier occurrence would end before the first one does, so inside `text`.
  have inside : text = left ++ pattern ++ (text.drop (left ++ pattern).length) := by
    have front := congrArg (List.take (left ++ pattern).length) other
    rw [List.take_left, List.take_append_of_le_length (by simp; omega)] at front
    rw [← front, List.length_take, Nat.min_eq_left (by simp; omega), List.take_append_drop]
  exact earlier (first left _ inside)

theorem split_reaches (text pattern before after more : List α)
    (missing : text.dropInfix? pattern = none)
    (found : (text ++ more).dropInfix? pattern = some (before, after)) :
    text.length < before.length + pattern.length := by
  by_contra short
  have split := split_text _ pattern before after found
  apply (split_none_iff text pattern).mp missing before (text.drop (before ++ pattern).length)
  have front := congrArg (List.take (before ++ pattern).length) split
  rw [List.take_left, List.take_append_of_le_length (by simp; omega)] at front
  rw [← front, List.length_take, Nat.min_eq_left (by simp; omega), List.take_append_drop]

theorem split_of_first (pattern before after : List α)
    (first : ∀ left right, before ++ pattern = left ++ pattern ++ right → right = []) :
    (before ++ pattern ++ after).dropInfix? pattern = some (before, after) := by
  have alone : (before ++ pattern).dropInfix? pattern = some (before, []) := by
    rw [split_iff]
    refine ⟨by simp, ?_⟩
    intro left right other
    have last := first left right other
    have lengths := congrArg List.length other
    subst last
    simp at lengths
    omega
  simpa using split_append _ pattern before [] after alone

theorem split_apart (pattern before after : List α) (solid : pattern ≠ [])
    (apart : ∀ element ∈ pattern, element ∉ before) :
    (before ++ pattern ++ after).dropInfix? pattern = some (before, after) := by
  apply split_of_first
  intro left right same
  have lengths := congrArg List.length same
  simp only [List.length_append] at lengths
  rcases Nat.lt_or_ge left.length before.length with within | behind
  · -- An earlier occurrence would begin ahead of it.
    have positive := List.length_pos_iff.mpr solid
    have here := congrArg (fun list => list[left.length]?) same
    simp only [List.append_assoc] at here
    rw [List.getElem?_append_left within, List.getElem?_append_right (Nat.le_refl _),
      Nat.sub_self, List.getElem?_append_left positive, List.getElem?_eq_getElem within,
      List.getElem?_eq_getElem positive, Option.some.injEq] at here
    exact absurd (here ▸ List.getElem_mem within) (apart _ (List.getElem_mem positive))
  · exact List.eq_nil_of_length_eq_zero (by omega)

/-- An element that the pattern does not hold separates the occurrences: the first
one ends ahead of it or begins behind it. -/
theorem split_separator (front back pattern : List α) (separator : α)
    (apart : separator ∉ pattern) :
    (front ++ separator :: back).dropInfix? pattern =
      match front.dropInfix? pattern with
      | some (before, after) => some (before, after ++ separator :: back)
      | none => (back.dropInfix? pattern).map fun (before, after) =>
          (front ++ separator :: before, after) := by
  cases ahead : front.dropInfix? pattern with
  | some parts => exact split_append front pattern parts.1 parts.2 _ ahead
  | none =>
      have absent := (split_none_iff front pattern).mp ahead
      -- An occurrence cannot reach over the separator, so it lies behind it.
      have behind : ∀ left right, front ++ separator :: back = left ++ pattern ++ right →
          ∃ more, left = front ++ separator :: more ∧ back = more ++ pattern ++ right := by
        intro left right same
        rw [List.append_assoc] at same
        rcases List.append_eq_append_iff.mp same with ⟨more, split, rest⟩ | ⟨more, split, rest⟩
        · cases more with
          | nil =>
              cases pattern with
              | nil => exact absurd (by simp) (absent front [])
              | cons first later =>
                  rw [List.nil_append, List.cons_append, List.cons.injEq] at rest
                  exact absurd rest.1 (fun eq => apart (by simp [eq]))
          | cons first later =>
              rw [List.cons_append, List.cons.injEq] at rest
              obtain ⟨rfl, rest⟩ := rest
              exact ⟨later, split, by rw [rest, List.append_assoc]⟩
        · exfalso
          rcases List.append_eq_append_iff.mp rest with ⟨beyond, inside, _⟩ | ⟨beyond, inside, last⟩
          · exact absent left beyond (by rw [split, inside, List.append_assoc])
          · cases beyond with
            | nil =>
                rw [List.append_nil] at inside
                exact absent left [] (by rw [split, inside, List.append_nil])
            | cons first later =>
                rw [List.cons_append, List.cons.injEq] at last
                exact apart (by rw [inside, last.1]; simp)
      cases later : back.dropInfix? pattern with
      | none =>
          rw [Option.map_none, split_none_iff]
          intro left right same
          obtain ⟨more, _, occurs⟩ := behind left right same
          exact (split_none_iff back pattern).mp later more right occurs
      | some parts =>
          obtain ⟨split, first⟩ := (split_iff _ _ parts.1 parts.2).mp later
          rw [Option.map_some, split_iff]
          constructor
          · simp [split]
          · intro left right same
            obtain ⟨more, rfl, occurs⟩ := behind left right same
            have least := first more right occurs
            simp only [List.length_append, List.length_cons]
            omega

omit [BEq α] [LawfulBEq α] in
theorem infix_apart [DecidableEq α] (front back pattern : List α) (separator : α)
    (apart : separator ∉ pattern) (inside : pattern <:+: front ++ separator :: back) :
    pattern <:+: front ∨ pattern <:+: back := by
  obtain ⟨left, right, same⟩ := inside
  have occurs : (front ++ separator :: back).dropInfix? pattern ≠ none := fun missing =>
    (split_none_iff _ _).mp missing left right same.symm
  rw [split_separator front back pattern separator apart] at occurs
  cases ahead : front.dropInfix? pattern with
  | some parts => exact Or.inl ⟨parts.1, parts.2, (split_text _ _ _ _ ahead).symm⟩
  | none =>
      cases behind : back.dropInfix? pattern with
      | some parts => exact Or.inr ⟨parts.1, parts.2, (split_text _ _ _ _ behind).symm⟩
      | none => simp [ahead, behind] at occurs

omit [BEq α] [LawfulBEq α] in
/-- An element that ends a pattern at most is not reached over: an occurrence that starts
before it ends with it at the latest. -/
theorem ends_inside (front more left right pattern : List α) (separator : α)
    (apart : separator ∉ pattern.dropLast)
    (same : front ++ [separator] ++ more = left ++ pattern ++ right)
    (starts : left.length < (front ++ [separator]).length) :
    left.length + pattern.length ≤ (front ++ [separator]).length := by
  by_contra beyond
  simp only [List.length_append, List.length_singleton] at starts beyond
  apply apart
  have char := congrArg (fun list => list[front.length]?) same
  have here : (front ++ [separator] ++ more)[front.length]? = some separator := by simp
  have there : (left ++ pattern ++ right)[front.length]? =
      pattern[front.length - left.length]? := by
    rw [List.append_assoc, List.getElem?_append_right (by omega),
      List.getElem?_append_left (by omega)]
  simp only [here, there] at char
  apply List.mem_of_getElem? (i := front.length - left.length)
  rw [List.getElem?_dropLast, if_pos (by omega), ← char]

omit [BEq α] [LawfulBEq α] in
theorem infix_separator (front more pattern : List α) (separator : α)
    (apart : separator ∉ pattern.dropLast) (inside : pattern <:+: front ++ [separator] ++ more) :
    pattern <:+: front ++ [separator] ∨ pattern <:+: more := by
  obtain ⟨left, right, same⟩ := inside
  by_cases starts : left.length < (front ++ [separator]).length
  · have ends := ends_inside front more left right pattern separator apart same.symm starts
    have whole := congrArg (List.take (left ++ pattern).length) same
    rw [List.take_left, List.take_append_of_le_length (by rw [List.length_append]; exact ends)]
      at whole
    have split := List.take_append_drop (left ++ pattern).length (front ++ [separator])
    rw [← whole] at split
    exact Or.inl ⟨left, _, split⟩
  · have rest := congrArg (List.drop (front ++ [separator]).length) same
    rw [List.drop_left, List.append_assoc, List.drop_append_of_le_length (by omega)] at rest
    exact Or.inr ⟨_, right, by rw [List.append_assoc]; exact rest⟩

end AsrServer.Occurrence
