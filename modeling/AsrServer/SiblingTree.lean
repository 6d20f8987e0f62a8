import Mathlib.Data.List.Find
import Mathlib.Data.List.Induction

/-!
Trees in a memory of cells: `left` is the newest child of a cell, `right` its next older
sibling. A cell is only ever put in front of the children of another, so `right` leads to
older cells and following it ends. Where no two children of a cell have the same key, a
cell is reached from the root along one list of keys, its path, and along no other; `push` adds
one path and keeps all others.
-/

namespace AsrServer.SiblingTree

variable {Label Key : Type*}

structure Cell (Label : Type*) where
  label : Label
  left : Option Nat
  right : Option Nat

/-! The memory. A cell is known by its place in it; the root is cell 0. -/

def labelOf (cells : List (Cell Label)) (pos : Nat) : Option Label := cells[pos]?.map Cell.label

def leftOf (cells : List (Cell Label)) (pos : Nat) : Option Nat := cells[pos]?.bind Cell.left

def rightOf (cells : List (Cell Label)) (pos : Nat) : Option Nat := cells[pos]?.bind Cell.right

def grow (cells : List (Cell Label)) (parent : Nat) (label : Label) : List (Cell Label) :=
  cells.modify parent (fun cell => { cell with left := some cells.length }) ++
    [⟨label, none, leftOf cells parent⟩]

def rewrite (cells : List (Cell Label)) (pos : Nat) (label : Label) : List (Cell Label) :=
  cells.modify pos fun cell => { cell with label := label }

section Memory

variable (cells : List (Cell Label)) (parent pos : Nat) (label : Label)

theorem grow_getElem : (grow cells parent label)[pos]? =
    if pos < cells.length then
      cells[pos]?.map fun cell =>
        if parent = pos then { cell with left := some cells.length } else cell
    else if pos = cells.length then some ⟨label, none, leftOf cells parent⟩
    else none := by
  rw [grow, List.getElem?_append, List.length_modify]
  split
  · rw [List.getElem?_modify]
    split <;> rfl
  · rename_i outside
    split
    · rename_i same
      simp [same]
    · rw [List.getElem?_eq_none]
      simp only [List.length_singleton]
      omega

theorem labelOf_grow : labelOf (grow cells parent label) pos =
    if pos = cells.length then some label else labelOf cells pos := by
  rw [labelOf, grow_getElem, labelOf]
  rcases Nat.lt_trichotomy pos cells.length with old | new | outside
  · rw [if_pos old, if_neg (by omega), Option.map_map]
    congr 1
    funext cell
    simp only [Function.comp_apply]
    split <;> rfl
  · rw [if_neg (by omega), if_pos new, if_pos new]
    rfl
  · rw [if_neg (by omega), if_neg (by omega), if_neg (by omega),
      List.getElem?_eq_none (by omega)]

theorem rightOf_grow : rightOf (grow cells parent label) pos =
    if pos = cells.length then leftOf cells parent else rightOf cells pos := by
  rw [rightOf, grow_getElem, rightOf]
  rcases Nat.lt_trichotomy pos cells.length with old | new | outside
  · rw [if_pos old, if_neg (by omega), Option.bind_map]
    congr 1
    funext cell
    simp only [Function.comp_apply]
    split <;> rfl
  · rw [if_neg (by omega), if_pos new, if_pos new]
    rfl
  · rw [if_neg (by omega), if_neg (by omega), if_neg (by omega),
      List.getElem?_eq_none (by omega)]

theorem leftOf_grow : leftOf (grow cells parent label) pos =
    if pos = parent ∧ pos < cells.length then some cells.length else leftOf cells pos := by
  have unchanged : leftOf cells pos = cells[pos]?.bind Cell.left := rfl
  rw [unchanged, leftOf, grow_getElem]
  rcases Nat.lt_trichotomy pos cells.length with old | new | outside
  · rw [if_pos old, List.getElem?_eq_getElem old, Option.map_some, Option.bind_some,
      Option.bind_some]
    by_cases same : pos = parent
    · rw [if_pos same.symm, if_pos ⟨same, old⟩]
    · rw [if_neg (Ne.symm same), if_neg (fun both => same both.1)]
  · rw [if_neg (by omega), if_pos new, if_neg (by omega), List.getElem?_eq_none (by omega)]
    rfl
  · rw [if_neg (by omega), if_neg (by omega), if_neg (by omega),
      List.getElem?_eq_none (by omega)]

theorem rewrite_getElem : (rewrite cells parent label)[pos]? =
    cells[pos]?.map fun cell => if parent = pos then { cell with label := label } else cell := by
  rw [rewrite, List.getElem?_modify]
  rfl

theorem labelOf_rewrite (there : parent < cells.length) :
    labelOf (rewrite cells parent label) pos =
      if pos = parent then some label else labelOf cells pos := by
  rw [labelOf, rewrite_getElem, Option.map_map, labelOf]
  by_cases same : pos = parent
  · subst same
    rw [if_pos rfl, List.getElem?_eq_getElem there, Option.map_some]
    simp
  · rw [if_neg same]
    congr 1
    funext cell
    rw [Function.comp_apply, if_neg (Ne.symm same)]

theorem rightOf_rewrite : rightOf (rewrite cells parent label) pos = rightOf cells pos := by
  rw [rightOf, rewrite_getElem, Option.bind_map, rightOf]
  congr 1
  funext cell
  simp only [Function.comp_apply]
  split <;> rfl

theorem leftOf_rewrite : leftOf (rewrite cells parent label) pos = leftOf cells pos := by
  rw [leftOf, rewrite_getElem, Option.bind_map, leftOf]
  congr 1
  funext cell
  simp only [Function.comp_apply]
  split <;> rfl

end Memory

structure Tree (Label : Type*) where
  cells : List (Cell Label)
  older : ∀ pos next, rightOf cells pos = some next → next < pos
  inside : ∀ pos next, leftOf cells pos = some next → next < cells.length

/-! Following the siblings. -/

def chain (right : Nat → Option Nat) : Nat → Option Nat → List Nat
  | fuel + 1, some pos => pos :: chain right fuel (right pos)
  | _, _ => []

def search (right : Nat → Option Nat) (test : Nat → Bool) : Nat → Option Nat → Option Nat
  | fuel + 1, some pos => if test pos then some pos else search right test fuel (right pos)
  | _, _ => none

theorem search_chain (right : Nat → Option Nat) (test : Nat → Bool) (fuel : Nat)
    (start : Option Nat) : search right test fuel start = (chain right fuel start).find? test := by
  induction fuel generalizing start with
  | zero => cases start <;> rfl
  | succ fuel ih =>
      cases start with
      | none => rfl
      | some pos =>
          rw [search, chain, List.find?_cons, ih]
          cases test pos <;> rfl

section Chains

variable {right : Nat → Option Nat} (older : ∀ pos next, right pos = some next → next < pos)

include older

/-- More fuel than the place of the first cell makes no difference. -/
theorem chain_fuel (fuel more : Nat) (start : Option Nat)
    (enough : ∀ pos, start = some pos → pos < fuel) :
    chain right (fuel + more) start = chain right fuel start := by
  induction fuel generalizing start with
  | zero =>
      cases start with
      | none => cases more <;> rfl
      | some pos => exact absurd (enough pos rfl) (Nat.not_lt_zero _)
  | succ fuel ih =>
      cases start with
      | none => cases more <;> rfl
      | some pos =>
          rw [Nat.succ_add, chain, chain, ih]
          intro next follows
          have less := older pos next follows
          have bound := enough pos rfl
          omega

theorem chain_below (fuel : Nat) (start : Option Nat) (bound : Nat)
    (first : ∀ pos, start = some pos → pos < bound) :
    ∀ pos ∈ chain right fuel start, pos < bound := by
  induction fuel generalizing start with
  | zero => cases start <;> simp [chain]
  | succ fuel ih =>
      cases start with
      | none => simp [chain]
      | some pos =>
          have less := first pos rfl
          rw [chain]
          intro other member
          rcases List.mem_cons.mp member with same | later
          · rw [same]
            exact less
          · refine ih (right pos) ?_ other later
            intro next follows
            exact Nat.lt_trans (older pos next follows) less

theorem chain_congr {other : Nat → Option Nat} (fuel : Nat) (start : Option Nat) (bound : Nat)
    (first : ∀ pos, start = some pos → pos < bound)
    (same : ∀ pos < bound, other pos = right pos) :
    chain other fuel start = chain right fuel start := by
  induction fuel generalizing start with
  | zero => cases start <;> rfl
  | succ fuel ih =>
      cases start with
      | none => rfl
      | some pos =>
          have less := first pos rfl
          rw [chain, chain, same pos less, ih]
          intro next follows
          exact Nat.lt_trans (older pos next follows) less

theorem chain_decreasing (fuel : Nat) (start : Option Nat) :
    (chain right fuel start).Pairwise fun one two => two < one := by
  induction fuel generalizing start with
  | zero => cases start <;> exact .nil
  | succ fuel ih =>
      cases start with
      | none => exact .nil
      | some pos =>
          rw [chain, List.pairwise_cons]
          exact ⟨chain_below older fuel (right pos) pos (older pos), ih (right pos)⟩

end Chains

namespace Tree

def single (label : Label) : Tree Label where
  cells := [⟨label, none, none⟩]
  older := by
    intro pos next follows
    cases pos <;> simp [rightOf] at follows
  inside := by
    intro pos next follows
    cases pos <;> simp [leftOf] at follows

variable (tree : Tree Label)

def push (parent : Nat) (label : Label) : Tree Label where
  cells := grow tree.cells parent label
  older := by
    intro pos next follows
    rw [rightOf_grow] at follows
    split at follows
    · rename_i new
      rw [new]
      exact tree.inside parent next follows
    · exact tree.older pos next follows
  inside := by
    intro pos next follows
    have size : (grow tree.cells parent label).length = tree.cells.length + 1 := by simp [grow]
    rw [size]
    rw [leftOf_grow] at follows
    split at follows
    · cases follows
      exact Nat.lt_succ_self _
    · exact Nat.lt_succ_of_lt (tree.inside pos next follows)

def relabel (pos : Nat) (label : Label) : Tree Label where
  cells := rewrite tree.cells pos label
  older := by
    intro other next follows
    rw [rightOf_rewrite] at follows
    exact tree.older other next follows
  inside := by
    intro other next follows
    rw [leftOf_rewrite] at follows
    rw [rewrite, List.length_modify]
    exact tree.inside other next follows

def label (pos : Nat) : Option Label := labelOf tree.cells pos

/-- The children of a cell, the newest first. -/
def children (pos : Nat) : List Nat :=
  chain (rightOf tree.cells) tree.cells.length (leftOf tree.cells pos)

theorem children_inside (pos child : Nat) (member : child ∈ tree.children pos) :
    child < tree.cells.length :=
  chain_below tree.older _ _ _ (tree.inside pos) child member

theorem children_outside (pos : Nat) (outside : tree.cells.length ≤ pos) :
    tree.children pos = [] := by
  rw [children, leftOf, List.getElem?_eq_none outside]
  cases tree.cells.length <;> rfl

theorem push_size (parent : Nat) (label : Label) :
    (tree.push parent label).cells.length = tree.cells.length + 1 := by
  simp [push, grow]

/-! A cursor goes along the siblings of a cell. -/

def along (start : Option Nat) : List Nat :=
  chain (rightOf tree.cells) tree.cells.length start

theorem along_left (pos : Nat) : tree.along (leftOf tree.cells pos) = tree.children pos := rfl

theorem along_none : tree.along none = [] := by
  unfold along
  cases tree.cells.length <;> rfl

theorem along_step (pos : Nat) (there : pos < tree.cells.length) :
    tree.along (some pos) = pos :: tree.along (rightOf tree.cells pos) := by
  have next : ∀ later, rightOf tree.cells pos = some later → later < tree.cells.length - 1 := by
    intro later follows
    have less := tree.older pos later follows
    omega
  have size : tree.cells.length = tree.cells.length - 1 + 1 := by omega
  unfold along
  rw [size, chain, chain_fuel tree.older _ 1 _ next]

theorem along_decreasing (start : Option Nat) :
    (tree.along start).Pairwise fun one two => two < one :=
  chain_decreasing tree.older _ start

theorem along_push (parent : Nat) (label : Label) (start : Option Nat)
    (there : ∀ pos, start = some pos → pos < tree.cells.length) :
    (tree.push parent label).along start = tree.along start := by
  have same : ∀ other < tree.cells.length,
      rightOf (tree.push parent label).cells other = rightOf tree.cells other := by
    intro other old
    rw [push, rightOf_grow, if_neg (by omega)]
  rw [along, push_size, chain_congr tree.older _ _ _ there same,
    chain_fuel tree.older _ 1 _ there]
  rfl

theorem along_relabel (pos : Nat) (label : Label) (start : Option Nat) :
    (tree.relabel pos label).along start = tree.along start := by
  have right : rightOf (tree.relabel pos label).cells = rightOf tree.cells := by
    funext cell
    exact rightOf_rewrite tree.cells pos cell label
  have size : (tree.relabel pos label).cells.length = tree.cells.length := by
    simp [relabel, rewrite]
  rw [along, right, size]
  rfl

/-- What is read off the cells along a cursor is what is read at the first that has something
to read, and then what is read behind it. -/
theorem along_search {Value : Type*} (read : Nat → Option Value) (start : Option Nat)
    (there : ∀ pos, start = some pos → pos < tree.cells.length) :
    (search (rightOf tree.cells) (fun pos => (read pos).isSome) tree.cells.length start = none ∧
        (tree.along start).filterMap read = []) ∨
      ∃ pos value,
        search (rightOf tree.cells) (fun pos => (read pos).isSome) tree.cells.length start =
            some pos ∧
          pos < tree.cells.length ∧ read pos = some value ∧
          tree.along (rightOf tree.cells pos) <:+ tree.along start ∧
          (tree.along start).filterMap read =
            value :: (tree.along (rightOf tree.cells pos)).filterMap read := by
  rw [search_chain]
  change ((tree.along start).find? _ = none ∧ _) ∨ ∃ pos value, (tree.along start).find? _ = _ ∧ _
  -- Towards older cells: a right sibling has been made before.
  induction size : start.elim 0 (· + 1) using Nat.strongRecOn generalizing start with
  | ind bound ih =>
      cases start with
      | none => exact .inl (by simp [along_none])
      | some pos =>
          have inside := there pos rfl
          rw [along_step tree pos inside, List.find?_cons, List.filterMap_cons]
          cases found : read pos with
          | some value =>
              exact .inr ⟨pos, value, rfl, inside, found, List.suffix_cons _ _, rfl⟩
          | none =>
              have less : (rightOf tree.cells pos).elim 0 (· + 1) < bound := by
                cases follows : rightOf tree.cells pos with
                | none => simp [← size]
                | some later =>
                    have older := tree.older pos later follows
                    simp only [Option.elim_some] at size ⊢
                    omega
              rcases ih _ less (rightOf tree.cells pos)
                  (fun later follows => (tree.older pos later follows).trans inside) rfl with
                missing | ⟨later, value, there, bound, passes, behind, rest⟩
              · exact .inl missing
              · exact .inr ⟨later, value, there, bound, passes,
                  behind.trans (List.suffix_cons _ _), rest⟩

/-! The children behind a push and behind a new label. -/

theorem children_push (parent pos : Nat) (label : Label) (there : parent < tree.cells.length) :
    (tree.push parent label).children pos =
      if pos = parent then tree.cells.length :: tree.children pos else tree.children pos := by
  have first : leftOf (tree.push parent label).cells pos =
      if pos = parent ∧ pos < tree.cells.length then some tree.cells.length
      else leftOf tree.cells pos := leftOf_grow _ _ _ _
  have siblings := tree.along_push parent label (leftOf tree.cells pos) (tree.inside pos)
  rw [← along_left, first]
  by_cases here : pos = parent
  · have right : rightOf (tree.push parent label).cells tree.cells.length =
        leftOf tree.cells pos := by
      rw [push, rightOf_grow, if_pos rfl, here]
    have new : tree.cells.length < (tree.push parent label).cells.length := by
      rw [push_size]
      exact Nat.lt_succ_self _
    rw [if_pos ⟨here, by omega⟩, if_pos here, along_step _ _ new, right, siblings, along_left]
  · rw [if_neg (fun both => here both.1), if_neg here, siblings, along_left]

theorem children_new (pos : Nat) : tree.cells.length ∉ tree.children pos := fun member =>
  absurd (tree.children_inside pos _ member) (Nat.lt_irrefl _)

theorem mem_push (parent pos child : Nat) (label : Label) (there : parent < tree.cells.length)
    (member : child ∈ (tree.push parent label).children pos) :
    (pos = parent ∧ child = tree.cells.length) ∨ child ∈ tree.children pos := by
  rw [children_push _ _ _ _ there] at member
  split at member
  · rename_i here
    exact (List.mem_cons.mp member).imp (And.intro here) id
  · exact Or.inr member

theorem label_push (parent pos : Nat) (label : Label) :
    (tree.push parent label).label pos =
      if pos = tree.cells.length then some label else tree.label pos :=
  labelOf_grow tree.cells parent pos label

theorem children_relabel (pos other : Nat) (label : Label) :
    (tree.relabel pos label).children other = tree.children other := by
  have left : leftOf (tree.relabel pos label).cells other = leftOf tree.cells other :=
    leftOf_rewrite tree.cells pos other label
  rw [← along_left, left, along_relabel, along_left]

theorem label_relabel (pos other : Nat) (label : Label) (there : pos < tree.cells.length) :
    (tree.relabel pos label).label other =
      if other = pos then some label else tree.label other :=
  labelOf_rewrite tree.cells pos other label there

/-! Keys and paths. -/

section Paths

variable [DecidableEq Key] (key : Label → Key)

def keyAt (pos : Nat) : Option Key := (tree.label pos).map key

def child (name : Key) (pos : Nat) : Option Nat :=
  (tree.children pos).find? fun other => tree.keyAt key other == some name

def locate (path : List Key) : Option Nat :=
  path.foldlM (fun pos name => tree.child key name pos) 0

/-- A cell is the child of at most one, the root of none; no two children share a key. -/
structure Grown : Prop where
  rooted : 0 < tree.cells.length
  orphan : ∀ pos, 0 ∉ tree.children pos
  parent : ∀ one two child, child ∈ tree.children one → child ∈ tree.children two → one = two
  apart : ∀ pos one two, one ∈ tree.children pos → two ∈ tree.children pos →
    tree.keyAt key one = tree.keyAt key two → one = two

theorem locate_snoc (path : List Key) (name : Key) :
    tree.locate key (path ++ [name]) = (tree.locate key path).bind (tree.child key name) := by
  rw [locate, List.foldlM_append]
  simp [locate]

theorem child_mem (name : Key) (pos found : Nat) (there : tree.child key name pos = some found) :
    found ∈ tree.children pos ∧ tree.keyAt key found = some name := by
  have passes := List.find?_some there
  exact ⟨List.mem_of_find?_eq_some there, beq_iff_eq.mp passes⟩

theorem locate_inside (grown : Grown tree key) (path : List Key) (pos : Nat)
    (there : tree.locate key path = some pos) : pos < tree.cells.length := by
  induction path using List.reverseRecOn with
  | nil =>
      cases there
      exact grown.rooted
  | append_singleton front name _ =>
      rw [locate_snoc] at there
      obtain ⟨parent, _, found⟩ := Option.bind_eq_some_iff.mp there
      exact tree.children_inside _ _ (tree.child_mem key name parent pos found).1

/-- A cell lies on one path. -/
theorem locate_injective (grown : Grown tree key) (one two : List Key) (pos : Nat)
    (first : tree.locate key one = some pos) (second : tree.locate key two = some pos) :
    one = two := by
  induction one using List.reverseRecOn generalizing two pos with
  | nil =>
      -- Only the empty path leads to the root, which is nobody's child.
      cases first
      rcases List.eq_nil_or_concat two with top | ⟨front, name, shape⟩
      · exact top.symm
      · rw [shape, List.concat_eq_append, locate_snoc] at second
        obtain ⟨parent, _, found⟩ := Option.bind_eq_some_iff.mp second
        exact absurd (tree.child_mem key name parent 0 found).1 (grown.orphan parent)
  | append_singleton front name ih =>
      rw [locate_snoc] at first
      obtain ⟨parent, above, found⟩ := Option.bind_eq_some_iff.mp first
      have member := tree.child_mem key name parent pos found
      rcases List.eq_nil_or_concat two with top | ⟨other, last, shape⟩
      · rw [top] at second
        cases second
        exact absurd member.1 (grown.orphan parent)
      · rw [shape, List.concat_eq_append, locate_snoc] at second
        obtain ⟨same, above', found'⟩ := Option.bind_eq_some_iff.mp second
        have member' := tree.child_mem key last same pos found'
        have parents := grown.parent parent same pos member.1 member'.1
        rw [← parents] at above'
        rw [member.2, Option.some.injEq] at member'
        rw [shape, List.concat_eq_append, ih other parent above above', member'.2]

/-! What the operations do to the paths. -/

omit [DecidableEq Key] in
theorem keyAt_push (parent pos : Nat) (label : Label) :
    (tree.push parent label).keyAt key pos =
      if pos = tree.cells.length then some (key label) else tree.keyAt key pos := by
  rw [keyAt, label_push]
  split <;> rfl

omit [DecidableEq Key] in
theorem keyAt_relabel (pos other : Nat) (label : Label) (there : pos < tree.cells.length)
    (same : tree.keyAt key pos = some (key label)) :
    (tree.relabel pos label).keyAt key other = tree.keyAt key other := by
  rw [keyAt, label_relabel _ _ _ _ there]
  split
  · rename_i here
    rw [here, same]
    rfl
  · rfl

omit [DecidableEq Key] in
theorem single_grown (label : Label) : Grown (single label) key := by
  have childless : ∀ pos, (single label).children pos = [] := by
    intro pos
    cases pos <;> rfl
  constructor
  · exact Nat.one_pos
  · intro pos
    rw [childless]
    exact List.not_mem_nil
  · intro one two child member
    rw [childless] at member
    exact absurd member List.not_mem_nil
  · intro pos one two member
    rw [childless] at member
    exact absurd member List.not_mem_nil

theorem Grown.push {tree : Tree Label} {key : Label → Key} (grown : Grown tree key) (parent : Nat)
    (label : Label) (there : parent < tree.cells.length)
    (absent : tree.child key (key label) parent = none) :
    Grown (tree.push parent label) key := by
  have new := tree.children_new
  have others : ∀ child ∈ tree.children parent, tree.keyAt key child ≠ some (key label) := by
    intro child member same
    have passes := List.find?_eq_none.mp absent child member
    exact passes (beq_iff_eq.mpr same)
  have keys : ∀ pos child, child ∈ tree.children pos →
      (tree.push parent label).keyAt key child = tree.keyAt key child := by
    intro pos child member
    rw [keyAt_push, if_neg]
    rintro rfl
    exact new pos member
  constructor
  case rooted =>
    rw [push_size]
    exact Nat.succ_pos _
  case orphan =>
    intro pos member
    rcases tree.mem_push parent pos 0 label there member with ⟨_, fresh⟩ | old
    · rw [← fresh] at there
      exact absurd there (Nat.not_lt_zero _)
    · exact grown.orphan pos old
  case parent =>
    intro one two child first second
    rcases tree.mem_push parent one child label there first with ⟨here, rfl⟩ | old
    · rcases tree.mem_push parent two _ label there second with ⟨same, _⟩ | old
      · rw [here, same]
      · exact absurd old (new two)
    · rcases tree.mem_push parent two child label there second with ⟨_, rfl⟩ | other
      · exact absurd old (new one)
      · exact grown.parent one two child old other
  case apart =>
    -- Only the new cell could share its key, and then its parent would have had that child.
    intro pos one two first second same
    rcases tree.mem_push parent pos one label there first with ⟨here, rfl⟩ | old
    · rcases tree.mem_push parent pos two label there second with ⟨_, rfl⟩ | other
      · rfl
      · rw [keys pos two other, keyAt_push, if_pos rfl] at same
        rw [here] at other
        exact absurd same.symm (others two other)
    · rcases tree.mem_push parent pos two label there second with ⟨here, rfl⟩ | other
      · rw [keys pos one old, keyAt_push, if_pos rfl] at same
        rw [here] at old
        exact absurd same (others one old)
      · rw [keys pos one old, keys pos two other] at same
        exact grown.apart pos one two old other same

omit [DecidableEq Key] in
theorem Grown.relabel {tree : Tree Label} {key : Label → Key} (grown : Grown tree key) (pos : Nat)
    (label : Label) (there : pos < tree.cells.length)
    (same : tree.keyAt key pos = some (key label)) : Grown (tree.relabel pos label) key := by
  have keys := fun other => tree.keyAt_relabel key pos other label there same
  constructor
  · simpa [Tree.relabel, rewrite] using grown.rooted
  · intro other
    rw [children_relabel]
    exact grown.orphan other
  · intro one two child
    rw [children_relabel, children_relabel]
    exact grown.parent one two child
  · intro other one two
    rw [children_relabel, keys, keys]
    exact grown.apart other one two

theorem child_push {tree : Tree Label} {key : Label → Key} (grown : Grown tree key)
    (path : List Key) (parent : Nat) (label : Label) (there : tree.locate key path = some parent)
    (front : List Key) (name : Key) (pos : Nat) (above : tree.locate key front = some pos) :
    (tree.push parent label).child key name pos =
      if front ++ [name] = path ++ [key label] then some tree.cells.length
      else tree.child key name pos := by
  have inside := tree.locate_inside key grown path parent there
  have old : (tree.children pos).find? (fun other =>
      (tree.push parent label).keyAt key other == some name) = tree.child key name pos := by
    apply List.find?_congr
    intro other member
    have bound := tree.children_inside pos other member
    rw [keyAt_push, if_neg (by omega)]
  rw [child, children_push _ _ _ _ inside]
  -- The new cell is the first child of its parent, and under its own key.
  by_cases here : pos = parent
  · have same : front = path := tree.locate_injective key grown front path pos above (here ▸ there)
    have first : (tree.push parent label).keyAt key tree.cells.length = some (key label) := by
      rw [keyAt_push, if_pos rfl]
    rw [if_pos here]
    by_cases named : key label = name
    · rw [List.find?_cons_of_pos (by rw [first, named, beq_self_eq_true]), same, named, if_pos rfl]
    · have differs : front ++ [name] ≠ path ++ [key label] := by
        intro both
        exact named (List.cons.inj (List.append_inj' both rfl).2).1.symm
      rw [List.find?_cons_of_neg (by rw [first]; simpa using named), old, if_neg differs]
  · have differs : front ++ [name] ≠ path ++ [key label] := by
      intro both
      rw [(List.append_inj' both rfl).1, there] at above
      exact here (Option.some.inj above).symm
    rw [if_neg here, if_neg differs, old]

/-- The new cell is at the end of its parent's path and its key; nothing else moves. -/
theorem locate_push {tree : Tree Label} {key : Label → Key} (grown : Grown tree key)
    (path : List Key) (parent : Nat) (label : Label) (there : tree.locate key path = some parent)
    (absent : tree.child key (key label) parent = none) (other : List Key) :
    (tree.push parent label).locate key other =
      if other = path ++ [key label] then some tree.cells.length else tree.locate key other := by
  have inside := tree.locate_inside key grown path parent there
  have missing : tree.locate key (path ++ [key label]) = none := by
    rw [locate_snoc, there, Option.bind_some, absent]
  induction other using List.reverseRecOn with
  | nil => rw [if_neg (by simp)]; rfl
  | append_singleton front name ih =>
      rw [locate_snoc, ih, locate_snoc]
      by_cases beyond : front = path ++ [key label]
      · -- The new cell has no children.
        have differs : front ++ [name] ≠ path ++ [key label] := by
          rw [beyond]
          simp
        have childless : (tree.push parent label).child key name tree.cells.length = none := by
          rw [child, children_push _ _ _ _ inside, if_neg (by omega),
            children_outside _ _ (Nat.le_refl _)]
          rfl
        rw [if_pos beyond, if_neg differs, Option.bind_some, childless, beyond, missing]
        rfl
      · rw [if_neg beyond]
        cases above : tree.locate key front with
        | none =>
            have differs : front ++ [name] ≠ path ++ [key label] := by
              intro same
              rw [(List.append_inj' same rfl).1, there] at above
              cases above
            rw [if_neg differs]
            rfl
        | some pos =>
            rw [Option.bind_some, Option.bind_some]
            exact child_push grown path parent label there front name pos above

theorem locate_relabel {tree : Tree Label} {key : Label → Key} (pos : Nat) (label : Label)
    (there : pos < tree.cells.length) (same : tree.keyAt key pos = some (key label))
    (path : List Key) : (tree.relabel pos label).locate key path = tree.locate key path := by
  have step : (fun parent name => (tree.relabel pos label).child key name parent) =
      fun parent name => tree.child key name parent := by
    funext parent name
    rw [child, children_relabel, child]
    simp only [tree.keyAt_relabel key pos _ label there same]
  rw [locate, step, locate]

end Paths

end Tree

end AsrServer.SiblingTree
