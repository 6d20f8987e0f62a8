import Mathlib

/-!
Codes without a word that is the front of another. A text over such a code is cut into
words in one way, and a cut of its front is the beginning of the cut of the whole.
-/

namespace AsrServer.PrefixCode

open Computability

variable {α : Type*}

structure IsPrefixCode (code : Language α) : Prop where
  solid : [] ∉ code
  apart : ∀ word ∈ code, ∀ other ∈ code, word <+: other → word = other

theorem IsPrefixCode.first {code : Language α} (prefixed : IsPrefixCode code)
    {word other rest more : List α} (member : word ∈ code) (among : other ∈ code)
    (same : word ++ rest = other ++ more) : word = other ∧ rest = more := by
  have equal : word = other := by
    rcases List.prefix_or_prefix_of_prefix ⟨rest, same⟩ ⟨more, rfl⟩ with within | around
    · exact prefixed.apart word member other among within
    · exact (prefixed.apart other among word member around).symm
  subst equal
  exact ⟨rfl, List.append_cancel_left same⟩

theorem IsPrefixCode.front {code : Language α} (prefixed : IsPrefixCode code)
    {words others : List (List α)} {rest : List α} (members : ∀ word ∈ words, word ∈ code)
    (among : ∀ word ∈ others, word ∈ code) (same : words.flatten ++ rest = others.flatten) :
    ∃ more, others = words ++ more ∧ rest = more.flatten := by
  induction words generalizing others with
  | nil => exact ⟨others, rfl, same⟩
  | cons word words ih =>
      obtain ⟨member, members⟩ := List.forall_mem_cons.mp members
      cases others with
      | nil =>
          -- A word is not empty.
          have empty := (List.append_eq_nil_iff.mp same).1
          rw [List.flatten_cons] at empty
          exact absurd ((List.append_eq_nil_iff.mp empty).1 ▸ member) prefixed.solid
      | cons other others =>
          obtain ⟨here, behind⟩ := List.forall_mem_cons.mp among
          rw [List.flatten_cons, List.flatten_cons, List.append_assoc] at same
          obtain ⟨rfl, later⟩ := prefixed.first member here same
          obtain ⟨more, rfl, last⟩ := ih members behind later
          exact ⟨more, rfl, last⟩

/-! Texts over a code. -/

theorem kstar_append {code : Language α} {front back : List α} (ahead : front ∈ code∗)
    (behind : back ∈ code∗) : front ++ back ∈ code∗ :=
  Set.mem_of_mem_of_subset (Language.append_mem_mul ahead behind) (kstar_mul_kstar code).le

theorem kstar_word {code : Language α} {word : List α} (member : word ∈ code) : word ∈ code∗ :=
  Language.mem_kstar.mpr ⟨[word], by simp, by simpa using member⟩

theorem IsPrefixCode.rest {code part other : Language α} (prefixed : IsPrefixCode code)
    (included : part ≤ code) (within : other ≤ code) {front rest : List α}
    (ahead : front ∈ part∗) (text : front ++ rest ∈ other∗) : rest ∈ other∗ := by
  obtain ⟨words, rfl, members⟩ := Language.mem_kstar.mp ahead
  obtain ⟨others, same, among⟩ := Language.mem_kstar.mp text
  obtain ⟨more, rfl, rfl⟩ := prefixed.front (fun word member => included (members word member))
    (fun word member => within (among word member)) same
  exact Language.join_mem_kstar (fun word member => among word (List.mem_append_right _ member))

theorem IsPrefixCode.head {code other : Language α} (prefixed : IsPrefixCode code)
    (within : other ≤ code) {word rest : List α} (here : word ∈ code)
    (text : word ++ rest ∈ other∗) : word ∈ other := by
  obtain ⟨others, same, among⟩ := Language.mem_kstar.mp text
  cases others with
  | nil => exact absurd ((List.append_eq_nil_iff.mp same).1 ▸ here) prefixed.solid
  | cons first others =>
      have own := among first List.mem_cons_self
      obtain ⟨rfl, _⟩ := prefixed.first here (within own) same
      exact own

theorem IsPrefixCode.part {code other : Language α} (prefixed : IsPrefixCode code)
    (within : other ≤ code) {front back : List α} (here : front ++ back ∈ code)
    (nonempty : front ≠ []) (more : back ≠ []) : front ∉ other∗ := by
  intro text
  obtain ⟨others, rfl, among⟩ := Language.mem_kstar.mp text
  cases others with
  | nil => exact nonempty rfl
  | cons first others =>
      rw [List.flatten_cons, List.append_assoc] at here
      have whole := prefixed.apart first (within (among first List.mem_cons_self)) _ here
        (List.prefix_append _ _)
      have nothing := (List.append_eq_nil_iff.mp (List.self_eq_append_right.mp whole)).2
      exact more nothing

/-- A place in a text is between two words or inside one. -/
theorem place (words : List (List α)) (n : Nat) (inside : n ≤ words.flatten.length) :
    (∃ front back, words = front ++ back ∧ n = front.flatten.length) ∨
      ∃ front word back, words = front ++ word :: back ∧ front.flatten.length < n ∧
        n < (front.flatten ++ word).length := by
  induction words generalizing n with
  | nil => exact .inl ⟨[], [], rfl, Nat.le_zero.mp inside⟩
  | cons word words ih =>
      rw [List.flatten_cons, List.length_append] at inside
      rcases Nat.eq_zero_or_pos n with rfl | positive
      · exact .inl ⟨[], word :: words, rfl, rfl⟩
      · rcases Nat.lt_or_ge n word.length with within | beyond
        · exact .inr ⟨[], word, words, rfl, positive, within⟩
        · rcases ih (n - word.length) (by omega) with
            ⟨front, back, rfl, count⟩ | ⟨front, other, back, rfl, low, high⟩
          · refine .inl ⟨word :: front, back, rfl, ?_⟩
            rw [List.flatten_cons, List.length_append]
            omega
          · refine .inr ⟨word :: front, other, back, rfl, ?_, ?_⟩
            · rw [List.flatten_cons, List.length_append]
              omega
            · rw [List.length_append] at high
              rw [List.flatten_cons, List.length_append, List.length_append]
              omega

end AsrServer.PrefixCode
