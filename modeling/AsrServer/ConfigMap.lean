import Mathlib.Data.List.DropRight
import AsrServer.RequestHeader
import AsrServer.SiblingTree

/-!
`config_map`: sections and values in one tree, the children of a node chained by `right`. A
pointer is the place of a node in the tree; sections are made by looking them up. What the
calls store is a list of entries, and the map is the last entry under each path and key.
-/

namespace AsrServer.ConfigMap

open Bytes RequestHeader SiblingTree

inductive NodeType where
  | SECTION
  | VALUE
  deriving DecidableEq, Repr

/-- What a `config_map_node` holds beside its pointers. -/
structure Content where
  type : NodeType
  key : List Byte
  value : List Byte
  deriving DecidableEq, Repr

def Content.name (content : Content) : NodeType × List Byte := (content.type, content.key)

structure Config where
  tree : SiblingTree.Tree Content
  cur : Nat
  iter : Option Nat

def config_map : Config := ⟨.single ⟨.SECTION, text "ROOT", []⟩, 0, none⟩

def strip (str : List Byte) : List Byte := (str.dropWhile isSpace).rdropWhile isSpace

/-- `replace(str.begin(), str.end(), '\\', '/')`. -/
def slash (char : Byte) : Byte := if char = 92 then 47 else char

variable (map : Config)

/-- The loop over the children of `cur` that goes on to the first of a type with a key. -/
def find_child (type : NodeType) (key : List Byte) : Option Nat :=
  search (rightOf map.tree.cells)
    (fun pos => (map.tree.label pos).any fun content => content.type == type && content.key == key)
    map.tree.cells.length (leftOf map.tree.cells map.cur)

/-- The body of the loop in `set_section`. -/
def enter (sub : List Byte) : Config :=
  match find_child map .SECTION sub with
  | some pos => { map with cur := pos, iter := leftOf map.tree.cells pos }
  | none =>
      let pos := map.tree.cells.length
      let tree := map.tree.push map.cur ⟨.SECTION, sub, []⟩
      { tree := tree, cur := pos, iter := leftOf tree.cells pos }

def set_section (key : List Byte) : Config :=
  ((key.map slash).splitOn 47).foldl
    (fun map part => if strip part = [] then map else enter map (strip part))
    { map with cur := 0 }

def set_value (key value : List Byte) : Config :=
  match find_child map .VALUE key with
  | none => { map with tree := map.tree.push map.cur ⟨.VALUE, key, value⟩ }
  | some pos => { map with tree := map.tree.relabel pos ⟨.VALUE, key, value⟩ }

/-- None where it returns -1. -/
def get_value (key : List Byte) : Option (List Byte) :=
  (find_child map .VALUE key).bind fun pos => (map.tree.label pos).map Content.value

def enum_value : Option (List Byte × List Byte) × Config :=
  match search (rightOf map.tree.cells)
      (fun pos => (map.tree.label pos).any fun content => content.type == .VALUE)
      map.tree.cells.length map.iter with
  | none => (none, { map with iter := none })
  | some pos =>
      ((map.tree.label pos).map fun content => (content.key, content.value),
        { map with iter := rightOf map.tree.cells pos })

/-! Calls. -/

inductive Call where
  | set_section (key : List Byte)
  | set_value (key value : List Byte)
  | get_value (key : List Byte)
  | enum_value
  deriving DecidableEq, Repr

def call : Call → Config
  | .set_section key => set_section map key
  | .set_value key value => set_value map key value
  | .get_value _ => map
  | .enum_value => (enum_value map).2

def run (calls : List Call) : Config := calls.foldl call map

def normalise (path : List Byte) : List (List Byte) :=
  (((path.map slash).splitOn 47).map strip).filter fun part => part ≠ []

structure Entry where
  path : List (List Byte)
  key : List Byte
  value : List Byte
  deriving DecidableEq, Repr

/-- What calls set, each entry under the section that is current then. -/
def entries : List (List Byte) → List Call → List Entry
  | _, [] => []
  | _, .set_section key :: later => entries (normalise key) later
  | current, .set_value key value :: later => ⟨current, key, value⟩ :: entries current later
  | current, .get_value _ :: later => entries current later
  | current, .enum_value :: later => entries current later

def lastValue (path : List (List Byte)) (key : List Byte) (entries : List Entry) :
    Option (List Byte) :=
  (entries.reverse.find? fun entry => entry.path = path ∧ entry.key = key).map Entry.value

/-- The calls make a finite map from paths and keys to values; under no node are there two of
one type and name. -/
structure FiniteMap (calls : List Call) : Prop where
  value : ∀ path key, get_value (set_section (run config_map calls) path) key =
    lastValue (normalise path) key (entries [] calls)
  apart : ∀ pos one two, one ∈ (run config_map calls).tree.children pos →
    two ∈ (run config_map calls).tree.children pos →
    ((run config_map calls).tree.label one).map Content.name =
      ((run config_map calls).tree.label two).map Content.name → one = two

/-! One child. -/

theorem find_child_eq (type : NodeType) (key : List Byte) :
    find_child map type key = map.tree.child Content.name (type, key) map.cur := by
  rw [find_child, search_chain, Tree.child]
  change (map.tree.children map.cur).find? _ = _
  congr 1
  funext pos
  rw [Tree.keyAt]
  cases map.tree.label pos with
  | none => rfl
  | some content =>
      rw [Option.any_some, Option.map_some]
      exact Bool.eq_iff_iff.mpr (by simp [Content.name])

/-! The invariant: the tree is grown by its operations, and `cur` is at the end of the path
of the current section. -/

def sections (path : List (List Byte)) : List (NodeType × List Byte) :=
  path.map fun part => (.SECTION, part)

structure Valid (path : List (List Byte)) : Prop where
  grown : map.tree.Grown Content.name
  here : map.tree.locate Content.name (sections path) = some map.cur

def lookup (tree : SiblingTree.Tree Content) (path : List (List Byte)) (key : List Byte) :
    Option (List Byte) :=
  (tree.locate Content.name (sections path ++ [(.VALUE, key)])).bind fun pos =>
    (tree.label pos).map Content.value

theorem config_map_valid : Valid config_map [] :=
  ⟨Tree.single_grown _ _, rfl⟩

theorem config_map_lookup (path : List (List Byte)) (key : List Byte) :
    lookup config_map.tree path key = none := by
  have childless : ∀ pos name, config_map.tree.child Content.name name pos = none := by
    intro pos name
    cases pos <;> rfl
  rw [lookup, Tree.locate_snoc]
  cases config_map.tree.locate Content.name (sections path) with
  | none => rfl
  | some pos => rw [Option.bind_some, childless]; rfl

section Steps

variable {map} {path : List (List Byte)} (valid : Valid map path)

include valid

theorem Valid.inside : map.cur < map.tree.cells.length :=
  map.tree.locate_inside _ valid.grown _ _ valid.here

theorem get_value_lookup (key : List Byte) : get_value map key = lookup map.tree path key := by
  rw [get_value, find_child_eq, lookup, Tree.locate_snoc, valid.here, Option.bind_some]

theorem found_at (type : NodeType) (key : List Byte) (pos : Nat)
    (found : find_child map type key = some pos) :
    map.tree.locate Content.name (sections path ++ [(type, key)]) = some pos := by
  rw [Tree.locate_snoc, valid.here, Option.bind_some, ← find_child_eq, found]

theorem push_lookup (content : Content)
    (absent : find_child map content.type content.key = none) (other : List (List Byte))
    (key : List Byte) :
    lookup (map.tree.push map.cur content) other key =
      if sections other ++ [(.VALUE, key)] = sections path ++ [content.name] then
        some content.value
      else lookup map.tree other key := by
  rw [find_child_eq] at absent
  rw [lookup, Tree.locate_push valid.grown _ _ content valid.here absent]
  split
  · rw [Option.bind_some, Tree.label_push, if_pos rfl]
    rfl
  · rw [lookup]
    cases found : map.tree.locate Content.name (sections other ++ [(.VALUE, key)]) with
    | none => rfl
    | some pos =>
        have inside := map.tree.locate_inside _ valid.grown _ _ found
        rw [Option.bind_some, Option.bind_some, Tree.label_push, if_neg (by omega)]

theorem relabel_lookup (key value : List Byte) (pos : Nat)
    (found : find_child map .VALUE key = some pos) (other : List (List Byte)) (name : List Byte) :
    lookup (map.tree.relabel pos ⟨.VALUE, key, value⟩) other name =
      if sections other ++ [(.VALUE, name)] = sections path ++ [(.VALUE, key)] then some value
      else lookup map.tree other name := by
  have there := found_at valid .VALUE key pos found
  have inside := map.tree.locate_inside _ valid.grown _ _ there
  rw [find_child_eq] at found
  have same := (map.tree.child_mem Content.name _ _ _ found).2
  rw [lookup, Tree.locate_relabel pos ⟨.VALUE, key, value⟩ inside same]
  split
  · rename_i here
    rw [here, there, Option.bind_some, Tree.label_relabel _ _ _ _ inside, if_pos rfl]
    rfl
  · rename_i elsewhere
    rw [lookup]
    cases lies : map.tree.locate Content.name (sections other ++ [(.VALUE, name)]) with
    | none => rfl
    | some found =>
        have apart : found ≠ pos := by
          rintro rfl
          exact elsewhere (map.tree.locate_injective _ valid.grown _ _ _ lies there)
        rw [Option.bind_some, Option.bind_some, Tree.label_relabel _ _ _ _ inside, if_neg apart]

omit valid in
theorem sections_inj (one two : List (List Byte)) (key name : List Byte) :
    sections one ++ [((.VALUE : NodeType), key)] = sections two ++ [(.VALUE, name)] ↔
      one = two ∧ key = name := by
  have injective : Function.Injective fun part : List Byte => (NodeType.SECTION, part) :=
    fun _ _ same => (Prod.mk.inj same).2
  rw [← List.concat_eq_append, ← List.concat_eq_append, List.concat_inj]
  exact and_congr (List.map_injective_iff.mpr injective).eq_iff (by simp)

theorem set_value_valid (key value : List Byte) : Valid (set_value map key value) path := by
  unfold set_value
  cases found : find_child map .VALUE key with
  | none =>
      have absent := found
      rw [find_child_eq] at absent
      refine ⟨valid.grown.push _ ⟨.VALUE, key, value⟩ (valid.inside) absent, ?_⟩
      have differs : sections path ≠ sections path ++ [(NodeType.VALUE, key)] := by simp
      dsimp only
      rw [Tree.locate_push valid.grown _ _ ⟨.VALUE, key, value⟩ valid.here absent]
      exact (if_neg differs).trans valid.here
  | some pos =>
      have inside := map.tree.locate_inside _ valid.grown _ _ (found_at valid .VALUE key pos found)
      rw [find_child_eq] at found
      have same := (map.tree.child_mem Content.name _ _ _ found).2
      refine ⟨valid.grown.relabel pos ⟨.VALUE, key, value⟩ inside same, ?_⟩
      dsimp only
      rw [Tree.locate_relabel pos ⟨.VALUE, key, value⟩ inside same]
      exact valid.here

theorem set_value_lookup (key value : List Byte) (other : List (List Byte)) (name : List Byte) :
    lookup (set_value map key value).tree other name =
      if other = path ∧ name = key then some value else lookup map.tree other name := by
  unfold set_value
  cases found : find_child map .VALUE key with
  | none =>
      dsimp only
      rw [push_lookup valid ⟨.VALUE, key, value⟩ found]
      simp only [Content.name, sections_inj]
  | some pos =>
      dsimp only
      rw [relabel_lookup valid key value pos found]
      simp only [sections_inj]

theorem enter_valid (sub : List Byte) : Valid (enter map sub) (path ++ [sub]) := by
  have further : sections (path ++ [sub]) = sections path ++ [(.SECTION, sub)] := by
    simp [sections]
  unfold enter
  cases found : find_child map .SECTION sub with
  | none =>
      have absent := found
      rw [find_child_eq] at absent
      refine ⟨valid.grown.push _ ⟨.SECTION, sub, []⟩ valid.inside absent, ?_⟩
      dsimp only
      rw [further, Tree.locate_push valid.grown _ _ ⟨.SECTION, sub, []⟩ valid.here absent]
      exact if_pos rfl
  | some pos =>
      refine ⟨valid.grown, ?_⟩
      rw [further]
      exact found_at valid .SECTION sub pos found

theorem enter_lookup (sub : List Byte) (other : List (List Byte)) (name : List Byte) :
    lookup (enter map sub).tree other name = lookup map.tree other name := by
  unfold enter
  cases found : find_child map .SECTION sub with
  | none =>
      have differs : sections other ++ [(NodeType.VALUE, name)] ≠
          sections path ++ [(NodeType.SECTION, sub)] := by
        intro same
        cases (List.append_inj' same rfl).2
      exact (push_lookup valid ⟨.SECTION, sub, []⟩ found other name).trans (if_neg differs)
  | some pos => rfl

theorem enter_all (parts : List (List Byte)) :
    Valid (parts.foldl enter map) (path ++ parts) ∧ ∀ other name,
      lookup (parts.foldl enter map).tree other name = lookup map.tree other name := by
  induction parts generalizing map path with
  | nil => exact ⟨by simpa using valid, fun _ _ => rfl⟩
  | cons part rest ih =>
      obtain ⟨later, same⟩ := ih (enter_valid valid part)
      refine ⟨by simpa using later, ?_⟩
      intro other name
      rw [List.foldl_cons, same, enter_lookup valid]

end Steps

theorem set_section_parts (key : List Byte) :
    set_section map key = (normalise key).foldl enter { map with cur := 0 } := by
  rw [set_section, normalise, List.foldl_filter, List.foldl_map]
  congr 1
  funext map part
  by_cases empty : strip part = [] <;> simp [empty]

theorem set_section_valid {path : List (List Byte)} (valid : Valid map path) (key : List Byte) :
    Valid (set_section map key) (normalise key) ∧ ∀ other name,
      lookup (set_section map key).tree other name = lookup map.tree other name := by
  have root : Valid { map with cur := 0 } [] := ⟨valid.grown, rfl⟩
  rw [set_section_parts]
  exact enter_all root (normalise key)

theorem enum_value_tree :
    (enum_value map).2.tree = map.tree ∧ (enum_value map).2.cur = map.cur := by
  unfold enum_value
  split <;> exact ⟨rfl, rfl⟩

/-! All calls. -/

theorem lastValue_cons (path : List (List Byte)) (key : List Byte) (entry : Entry)
    (later : List Entry) : lastValue path key (entry :: later) =
      (lastValue path key later).or
        (if path = entry.path ∧ key = entry.key then some entry.value else none) := by
  rw [lastValue, lastValue, List.reverse_cons, List.find?_append]
  cases later.reverse.find? fun entry => entry.path = path ∧ entry.key = key with
  | some found => rfl
  | none =>
      by_cases here : path = entry.path ∧ key = entry.key
      · simp [here]
      · have other : ¬ (entry.path = path ∧ entry.key = key) := fun same =>
          here ⟨same.1.symm, same.2.symm⟩
        simp [here, other]

/-- The map after some calls is the map before, with the entries they make written to it. -/
theorem run_lookup {path : List (List Byte)} (valid : Valid map path) (calls : List Call) :
    ∃ current, Valid (run map calls) current ∧ ∀ other name,
      lookup (run map calls).tree other name =
        (lastValue other name (entries path calls)).or (lookup map.tree other name) := by
  induction calls generalizing map path with
  | nil => exact ⟨path, valid, fun _ _ => rfl⟩
  | cons first later ih =>
      cases first with
      | set_section key =>
          obtain ⟨entered, kept⟩ := set_section_valid map valid key
          obtain ⟨current, valid, ran⟩ := ih _ entered
          exact ⟨current, valid, fun other name => by rw [← kept other name]; exact ran other name⟩
      | set_value key value =>
          obtain ⟨current, later_valid, ran⟩ := ih _ (set_value_valid valid key value)
          refine ⟨current, later_valid, ?_⟩
          -- A later entry counts first, then this one, then what was there.
          intro other name
          have stored := set_value_lookup valid key value other name
          rw [entries, lastValue_cons, Option.or_assoc]
          refine (ran other name).trans ?_
          congr 1
          refine stored.trans ?_
          split <;> rfl
      | get_value key => exact ih map valid
      | enum_value =>
          -- It moves `iter` only.
          have same := enum_value_tree map
          have unchanged : Valid (enum_value map).2 path :=
            ⟨by rw [same.1]; exact valid.grown, by rw [same.1, same.2]; exact valid.here⟩
          obtain ⟨current, valid, ran⟩ := ih _ unchanged
          exact ⟨current, valid, fun other name => by
            rw [← same.1]
            exact ran other name⟩

theorem run_value (calls : List Call) (path key : List Byte) :
    get_value (set_section (run config_map calls) path) key =
      lastValue (normalise path) key (entries [] calls) := by
  obtain ⟨current, valid, ran⟩ := run_lookup config_map config_map_valid calls
  obtain ⟨entered, kept⟩ := set_section_valid _ valid path
  rw [get_value_lookup entered, kept, ran, config_map_lookup, Option.or_none]

/-- Every sequence of calls makes a finite map. -/
theorem finite_map (calls : List Call) : FiniteMap calls := by
  obtain ⟨current, valid, _⟩ := run_lookup config_map config_map_valid calls
  exact ⟨run_value calls, valid.grown.apart⟩

example : get_value (set_section (run config_map
    [.set_section (text "a"), .set_value (text "b") [1],
    .set_section (text "a/ b"), .set_value (text "b") [2]]) (text "\\a\\")) (text "b") =
    some [1] := by
  decide +kernel

end AsrServer.ConfigMap
