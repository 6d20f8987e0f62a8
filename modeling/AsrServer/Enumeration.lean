import AsrServer.ConfigMap

/-!
`enum_value`: repeated calls list the values from the cursor `iter` on. `set_section` sets the
cursor to the front of a section in the loop over the components of its path, so a path
without components goes back to the root and leaves the cursor where it is. What is ahead
of the cursor is computed from the calls alone, with the tree behind it.
-/

namespace AsrServer.ConfigMap

open Bytes SiblingTree

/-- What `enum_value` returns until it returns -1. -/
inductive Listed : Config → List (List Byte × List Byte) → Prop where
  | done {map last : Config} : enum_value map = (none, last) → Listed map []
  | next {map later : Config} {pair : List Byte × List Byte} {pairs} :
      enum_value map = (some pair, later) → Listed later pairs → Listed map (pair :: pairs)

/-- A listing has the pairs of a section, each once. -/
def ListsSection (map : Config) (path : List (List Byte)) (stored : List Entry) : Prop :=
  ∃ pairs, Listed map pairs ∧ pairs.Nodup ∧
    ∀ key value, (key, value) ∈ pairs ↔ lastValue path key stored = some value

/-! What is ahead of the cursor, from the calls alone. -/

def keysOf (path : List (List Byte)) (stored : List Entry) : List (List Byte) :=
  stored.foldl
    (fun keys entry =>
      if entry.path = path ∧ entry.key ∉ keys then entry.key :: keys else keys) []

/-- The section that was listed last and the keys in it that have not been returned. -/
structure Cursor where
  section_ : List (List Byte)
  left : List (List Byte)
deriving DecidableEq, Repr

structure Progress where
  stored : List Entry
  current : List (List Byte)
  cursor : Cursor
deriving DecidableEq, Repr

def Progress.after (progress : Progress) : Call → Progress
  | .set_section key =>
      { progress with
        current := normalise key
        cursor :=
          if normalise key = [] then progress.cursor
          else ⟨normalise key, keysOf (normalise key) progress.stored⟩ }
  | .set_value key value =>
      { progress with stored := progress.stored ++ [⟨progress.current, key, value⟩] }
  | .get_value _ => progress
  | .enum_value =>
      { progress with cursor := ⟨progress.cursor.section_, progress.cursor.left.tail⟩ }

def progress (calls : List Call) : Progress := calls.foldl Progress.after ⟨[], [], ⟨[], []⟩⟩

def ahead (calls : List Call) : List (List Byte × List Byte) :=
  (progress calls).cursor.left.filterMap fun key =>
    (lastValue (progress calls).cursor.section_ key (entries [] calls)).map fun value =>
      (key, value)

/-- The pairs that are still ahead of the cursor are those of the root. -/
def RootAhead (calls : List Call) : Prop :=
  ∀ key value, (key, value) ∈ ahead calls ↔ lastValue [] key (entries [] calls) = some value

theorem progress_snoc (calls : List Call) (last : Call) :
    progress (calls ++ [last]) = (progress calls).after last := by
  rw [progress, List.foldl_append]
  rfl

theorem keysOf_snoc (path : List (List Byte)) (stored : List Entry) (entry : Entry) :
    keysOf path (stored ++ [entry]) =
      if entry.path = path ∧ entry.key ∉ keysOf path stored then entry.key :: keysOf path stored
      else keysOf path stored := by
  rw [keysOf, List.foldl_append]
  rfl

/-! The listing goes along the cells. -/

def pairAt (tree : SiblingTree.Tree Content) (pos : Nat) : Option (List Byte × List Byte) :=
  (tree.label pos).bind fun content =>
    if content.type = .VALUE then some (content.key, content.value) else none

theorem enum_value_eq (map : Config) (inside : ∀ pos, map.iter = some pos →
      pos < map.tree.cells.length) :
    ((map.tree.along map.iter).filterMap (pairAt map.tree) = [] ∧
        enum_value map = (none, { map with iter := none })) ∨
      ∃ pos pair, pos < map.tree.cells.length ∧
        map.tree.along (rightOf map.tree.cells pos) <:+ map.tree.along map.iter ∧
        (map.tree.along map.iter).filterMap (pairAt map.tree) =
          pair :: (map.tree.along (rightOf map.tree.cells pos)).filterMap (pairAt map.tree) ∧
        enum_value map = (some pair, { map with iter := rightOf map.tree.cells pos }) := by
  -- `enum_value` looks for a cell that is a value, `pairAt` reads it.
  have same : (fun pos => (map.tree.label pos).any fun content => content.type == .VALUE) =
      fun pos => (pairAt map.tree pos).isSome := by
    funext pos
    unfold pairAt
    cases map.tree.label pos with
    | none => rfl
    | some content =>
        obtain ⟨type, key, value⟩ := content
        cases type with
        | SECTION => rfl
        | VALUE => rfl
  unfold enum_value
  rw [same]
  rcases map.tree.along_search (pairAt map.tree) map.iter inside with
    ⟨missing, all⟩ | ⟨pos, pair, found, there, read, behind, rest⟩
  · rw [missing]
    exact .inl ⟨all, rfl⟩
  · rw [found]
    refine .inr ⟨pos, pair, there, behind, rest, ?_⟩
    unfold pairAt at read
    cases label : map.tree.label pos with
    | none => simp [label] at read
    | some content =>
        rw [label, Option.bind_some] at read
        split at read
        · cases read
          simp [label]
        · cases read

theorem listed_along (map : Config)
    (inside : ∀ pos, map.iter = some pos → pos < map.tree.cells.length) :
    Listed map ((map.tree.along map.iter).filterMap (pairAt map.tree)) := by
  generalize pairs_eq : (map.tree.along map.iter).filterMap (pairAt map.tree) = pairs
  induction pairs generalizing map with
  | nil =>
      rcases enum_value_eq map inside with ⟨_, ends⟩ | ⟨pos, pair, _, _, rest, _⟩
      · exact .done ends
      · rw [pairs_eq] at rest
        cases rest
  | cons pair pairs ih =>
      rcases enum_value_eq map inside with ⟨empty, _⟩ | ⟨pos, first, there, _, rest, moved⟩
      · rw [pairs_eq] at empty
        cases empty
      · rw [pairs_eq, List.cons.injEq] at rest
        obtain ⟨rfl, rest⟩ := rest
        refine .next moved (ih { map with iter := rightOf map.tree.cells pos } ?_ rest.symm)
        intro later follows
        exact (map.tree.older pos later follows).trans there

theorem Listed.unique {map : Config} {one two : List (List Byte × List Byte)}
    (first : Listed map one) (second : Listed map two) : one = two := by
  induction first generalizing two with
  | done ends =>
      cases second with
      | done _ => rfl
      | next moved _ =>
          rw [ends] at moved
          cases moved
  | next moved _ ih =>
      cases second with
      | done ends =>
          rw [ends] at moved
          cases moved
      | next other later =>
          rw [moved] at other
          cases other
          rw [ih later]

/-! The values of a section. -/

theorem pairAt_label (tree : SiblingTree.Tree Content) (pos : Nat) (key value : List Byte) :
    pairAt tree pos = some (key, value) ↔ tree.label pos = some ⟨.VALUE, key, value⟩ := by
  unfold pairAt
  cases tree.label pos with
  | none => simp
  | some content =>
      obtain ⟨type, name, held⟩ := content
      cases type with
      | SECTION => simp
      | VALUE => simp

theorem pairAt_key (tree : SiblingTree.Tree Content) (pos : Nat) (key value : List Byte)
    (pair : pairAt tree pos = some (key, value)) :
    tree.keyAt Content.name pos = some (.VALUE, key) := by
  rw [pairAt_label] at pair
  rw [Tree.keyAt, pair]
  rfl

theorem mem_pairs (tree : SiblingTree.Tree Content) (grown : tree.Grown Content.name)
    (path : List (List Byte)) (pos : Nat)
    (here : tree.locate Content.name (sections path) = some pos) (key value : List Byte) :
    (key, value) ∈ (tree.children pos).filterMap (pairAt tree) ↔
      lookup tree path key = some value := by
  rw [lookup, Tree.locate_snoc, here, Option.bind_some, List.mem_filterMap]
  constructor
  · rintro ⟨cell, member, pair⟩
    have named := pairAt_key tree cell key value pair
    cases found : tree.child Content.name (.VALUE, key) pos with
    | none =>
        have passes := List.find?_eq_none.mp found cell member
        exact absurd named (by simpa using passes)
    | some other =>
        obtain ⟨sibling, same⟩ := tree.child_mem Content.name _ _ _ found
        have equal := grown.apart pos other cell sibling member (same.trans named.symm)
        rw [pairAt_label] at pair
        rw [Option.bind_some, equal, pair]
        rfl
  · intro stored
    obtain ⟨cell, found, label⟩ := Option.bind_eq_some_iff.mp stored
    obtain ⟨content, held, rfl⟩ := Option.map_eq_some_iff.mp label
    obtain ⟨member, named⟩ := tree.child_mem Content.name _ _ _ found
    refine ⟨cell, member, ?_⟩
    rw [Tree.keyAt, held] at named
    obtain ⟨type, name, value⟩ := content
    cases named
    rw [pairAt_label, held]

theorem pairs_nodup (tree : SiblingTree.Tree Content) (grown : tree.Grown Content.name)
    (start : Option Nat) (pos : Nat)
    (siblings : ∀ cell ∈ tree.along start, cell ∈ tree.children pos) :
    ((tree.along start).filterMap (pairAt tree)).Nodup := by
  rw [List.Nodup, List.pairwise_filterMap]
  apply (tree.along_decreasing start).imp_of_mem
  intro one two first second less pair read other there same
  have keys := pairAt_key tree one pair.1 pair.2 read
  rw [same] at keys
  have equal := grown.apart pos one two (siblings one first) (siblings two second)
    (keys.trans (pairAt_key tree two other.1 other.2 there).symm)
  omega

def valueKey (tree : SiblingTree.Tree Content) (pos : Nat) : Option (List Byte) :=
  (pairAt tree pos).map Prod.fst

def keysUnder (tree : SiblingTree.Tree Content) (path : List (List Byte)) : List (List Byte) :=
  match tree.locate Content.name (sections path) with
  | none => []
  | some pos => (tree.children pos).filterMap (valueKey tree)

theorem keysUnder_located {tree : SiblingTree.Tree Content} {path : List (List Byte)} {pos : Nat}
    (here : tree.locate Content.name (sections path) = some pos) :
    keysUnder tree path = (tree.children pos).filterMap (valueKey tree) := by
  rw [keysUnder, here]

theorem mem_keysUnder (tree : SiblingTree.Tree Content) (grown : tree.Grown Content.name)
    (path : List (List Byte)) (pos : Nat)
    (here : tree.locate Content.name (sections path) = some pos) (key : List Byte) :
    key ∈ keysUnder tree path ↔ ∃ value, lookup tree path key = some value := by
  simp only [← mem_pairs tree grown path pos here]
  rw [keysUnder_located here]
  simp only [List.mem_filterMap, valueKey, Option.map_eq_some_iff]
  constructor
  · rintro ⟨cell, member, ⟨_, value⟩, pair, rfl⟩
    exact ⟨value, cell, member, pair⟩
  · rintro ⟨value, cell, member, pair⟩
    exact ⟨cell, member, (key, value), pair, rfl⟩

theorem sections_injective (one two : List (List Byte)) (same : sections one = sections two) :
    one = two := by
  have injective : Function.Injective fun part : List Byte => (NodeType.SECTION, part) :=
    fun _ _ same => (Prod.mk.inj same).2
  exact List.map_injective_iff.mpr injective same

theorem sections_last {one two : List (List Byte)} {name : NodeType × List Byte}
    (same : sections one = sections two ++ [name]) : name.1 = .SECTION := by
  have member : name ∈ sections one := by simp [same]
  obtain ⟨part, _, rfl⟩ := List.mem_map.mp member
  rfl

theorem pairAt_push (map : Config) (content : Content) (pos : Nat)
    (old : pos < map.tree.cells.length) :
    pairAt (map.tree.push map.cur content) pos = pairAt map.tree pos := by
  rw [pairAt, Tree.label_push, if_neg (by omega), pairAt]

theorem filterMap_push {Value : Type} (map : Config) (content : Content) (cells : List Nat)
    (read : List Byte × List Byte → Value)
    (old : ∀ pos ∈ cells, pos < map.tree.cells.length) :
    cells.filterMap (fun pos => (pairAt (map.tree.push map.cur content) pos).map read) =
      cells.filterMap (fun pos => (pairAt map.tree pos).map read) := by
  apply List.filterMap_congr
  intro pos member
  rw [pairAt_push map content pos (old pos member)]

section Steps

variable {map : Config} {path : List (List Byte)} (valid : Valid map path)

include valid

theorem keysUnder_push (content : Content)
    (absent : find_child map content.type content.key = none) (other : List (List Byte)) :
    keysUnder (map.tree.push map.cur content) other =
      if content.type = .VALUE ∧ other = path then content.key :: keysUnder map.tree other
      else keysUnder map.tree other := by
  have inside := valid.inside
  rw [find_child_eq] at absent
  have missing : map.tree.locate Content.name (sections path ++ [content.name]) = none := by
    rw [Tree.locate_snoc, valid.here]
    exact absent
  rw [keysUnder, Tree.locate_push valid.grown _ _ content valid.here absent]
  by_cases new : sections other = sections path ++ [content.name]
  · -- The new cell is a section, and empty.
    have type : content.type = .SECTION := sections_last new
    rw [if_pos new, keysUnder, new, missing, if_neg (by simp [type])]
    simp only
    rw [Tree.children_push _ _ _ _ inside, if_neg (by omega),
      Tree.children_outside _ _ (Nat.le_refl _)]
    rfl
  · rw [if_neg new]
    -- An old section keeps its children; the current one gets the new cell in front.
    cases found : map.tree.locate Content.name (sections other) with
    | none =>
        have differs : other ≠ path := by
          rintro rfl
          rw [valid.here] at found
          cases found
        rw [if_neg (fun both => differs both.2), keysUnder, found]
    | some pos =>
        have old : (map.tree.children pos).filterMap (valueKey (map.tree.push map.cur content)) =
            (map.tree.children pos).filterMap (valueKey map.tree) :=
          filterMap_push map content _ Prod.fst fun cell member =>
            map.tree.children_inside pos cell member
        simp only
        rw [keysUnder_located found, Tree.children_push _ _ _ _ inside]
        by_cases here : pos = map.cur
        · have same : other = path := sections_injective other path
            (map.tree.locate_injective _ valid.grown _ _ pos found (here ▸ valid.here))
          rw [if_pos here, List.filterMap_cons, old]
          have label : (map.tree.push map.cur content).label map.tree.cells.length =
              some content := by
            rw [Tree.label_push, if_pos rfl]
          rw [valueKey, pairAt, label, Option.bind_some]
          by_cases value : content.type = .VALUE
          · rw [if_pos value, if_pos ⟨value, same⟩]
            rfl
          · rw [if_neg value, if_neg (fun both => value both.1)]
            rfl
        · have differs : other ≠ path := by
            rintro rfl
            rw [valid.here] at found
            exact here (Option.some.inj found).symm
          rw [if_neg here, if_neg (fun both => differs both.2), old]

theorem keysUnder_relabel (key value : List Byte) (pos : Nat)
    (found : find_child map .VALUE key = some pos) (other : List (List Byte)) :
    keysUnder (map.tree.relabel pos ⟨.VALUE, key, value⟩) other = keysUnder map.tree other ∧
      valueKey (map.tree.relabel pos ⟨.VALUE, key, value⟩) = valueKey map.tree := by
  have inside := map.tree.locate_inside _ valid.grown _ _ (found_at valid .VALUE key pos found)
  rw [find_child_eq] at found
  have same := (map.tree.child_mem Content.name _ _ _ found).2
  have keys : valueKey (map.tree.relabel pos ⟨.VALUE, key, value⟩) = valueKey map.tree := by
    funext cell
    unfold valueKey pairAt
    rw [Tree.label_relabel _ _ _ _ inside]
    split
    · rename_i here
      subst here
      rw [Tree.keyAt, Option.map_eq_some_iff] at same
      obtain ⟨content, held, named⟩ := same
      obtain ⟨type, name, old⟩ := content
      cases named
      rw [held]
      rfl
    · rfl
  refine ⟨?_, keys⟩
  rw [keysUnder, Tree.locate_relabel pos ⟨.VALUE, key, value⟩ inside same, keysUnder, keys]
  simp only [Tree.children_relabel]

end Steps

/-! The invariant: the entries are in the tree, and the cursor is among the values of the section
listed last. -/

structure Tracks (map : Config) (progress : Progress) : Prop where
  valid : Valid map progress.current
  keys : ∀ path, keysUnder map.tree path = keysOf path progress.stored
  stored : ∀ path key, lookup map.tree path key = lastValue path key progress.stored
  inside : ∀ pos, map.iter = some pos → pos < map.tree.cells.length
  siblings : ∀ cell ∈ map.tree.along map.iter, ∃ pos,
    map.tree.locate Content.name (sections progress.cursor.section_) = some pos ∧
      cell ∈ map.tree.children pos
  left : progress.cursor.left = (map.tree.along map.iter).filterMap (valueKey map.tree)

theorem lastValue_snoc (path : List (List Byte)) (key : List Byte) (stored : List Entry)
    (entry : Entry) : lastValue path key (stored ++ [entry]) =
      if path = entry.path ∧ key = entry.key then some entry.value
      else lastValue path key stored := by
  rw [lastValue, lastValue, List.reverse_append, List.reverse_singleton, List.singleton_append,
    List.find?_cons]
  by_cases here : path = entry.path ∧ key = entry.key
  · simp [here]
  · have other : ¬ (entry.path = path ∧ entry.key = key) := fun same =>
      here ⟨same.1.symm, same.2.symm⟩
    simp [here, other]

theorem config_map_tracks : Tracks config_map ⟨[], [], ⟨[], []⟩⟩ := by
  have childless : ∀ pos, config_map.tree.children pos = [] := by
    intro pos
    cases pos <;> rfl
  constructor
  · exact config_map_valid
  · intro path
    unfold keysUnder
    cases config_map.tree.locate Content.name (sections path) with
    | none => rfl
    | some pos => simp [childless, keysOf]
  · exact config_map_lookup
  · intro pos follows
    cases follows
  · intro cell member
    rw [show config_map.iter = none from rfl, Tree.along_none] at member
    cases member
  · rw [show config_map.iter = none from rfl, Tree.along_none]
    rfl

theorem Tracks.lookup_set {map : Config} {progress : Progress} (tracks : Tracks map progress)
    (key value : List Byte) (path : List (List Byte)) (name : List Byte) :
    lookup (ConfigMap.set_value map key value).tree path name =
      lastValue path name (progress.stored ++ [⟨progress.current, key, value⟩]) := by
  rw [set_value_lookup tracks.valid, lastValue_snoc, tracks.stored]

theorem Tracks.set_new {map : Config} {progress : Progress} (tracks : Tracks map progress)
    (key value : List Byte) (found : find_child map .VALUE key = none) :
    Tracks (ConfigMap.set_value map key value) (progress.after (.set_value key value)) := by
  have valid := tracks.valid
  have next := set_value_valid valid key value
  have stored := tracks.lookup_set key value
  have shape : ConfigMap.set_value map key value =
      { map with tree := map.tree.push map.cur ⟨.VALUE, key, value⟩ } := by
    rw [ConfigMap.set_value, found]
  have absent : map.tree.child Content.name (.VALUE, key) map.cur = none := by
    rw [← find_child_eq, found]
  have new : key ∉ keysUnder map.tree progress.current := by
    rw [mem_keysUnder map.tree valid.grown progress.current map.cur valid.here key]
    rintro ⟨old, there⟩
    rw [lookup, Tree.locate_snoc, valid.here, Option.bind_some, absent] at there
    cases there
  have inside := valid.inside
  rw [shape] at stored next ⊢
  refine ⟨next, ?_, stored, ?_, ?_, ?_⟩
  · intro path
    refine (keysUnder_push valid ⟨.VALUE, key, value⟩ found path).trans ?_
    rw [Progress.after, keysOf_snoc, ← tracks.keys path]
    by_cases here : path = progress.current
    · subst here
      rw [if_pos ⟨rfl, rfl⟩, if_pos ⟨rfl, new⟩]
    · rw [if_neg (fun both => here both.2), if_neg (fun both => here both.1.symm)]
  -- The new cell is in front of its siblings, so no cursor comes by it.
  · intro pos follows
    exact (tracks.inside pos follows).trans_le (by rw [Tree.push_size]; omega)
  · intro cell there
    rw [Tree.along_push _ _ _ _ tracks.inside] at there
    obtain ⟨pos, located, child⟩ := tracks.siblings cell there
    refine ⟨pos, ?_, ?_⟩
    · dsimp only
      rw [Tree.locate_push valid.grown _ _ ⟨.VALUE, key, value⟩ valid.here absent, if_neg]
      · exact located
      · intro same
        cases sections_last same
    · dsimp only
      rw [Tree.children_push _ _ _ _ inside]
      split
      · exact List.mem_cons_of_mem _ child
      · exact child
  · dsimp only
    rw [Tree.along_push _ _ _ _ tracks.inside]
    refine tracks.left.trans (filterMap_push map _ _ Prod.fst ?_).symm
    intro cell there
    obtain ⟨pos, _, child⟩ := tracks.siblings cell there
    exact map.tree.children_inside pos cell child

theorem Tracks.set_old {map : Config} {progress : Progress} (tracks : Tracks map progress)
    (key value : List Byte) (pos : Nat) (found : find_child map .VALUE key = some pos) :
    Tracks (ConfigMap.set_value map key value) (progress.after (.set_value key value)) := by
  have valid := tracks.valid
  have next := set_value_valid valid key value
  have stored := tracks.lookup_set key value
  have shape : ConfigMap.set_value map key value =
      { map with tree := map.tree.relabel pos ⟨.VALUE, key, value⟩ } := by
    rw [ConfigMap.set_value, found]
  have place := map.tree.locate_inside _ valid.grown _ _ (found_at valid .VALUE key pos found)
  have old : key ∈ keysUnder map.tree progress.current := by
    rw [mem_keysUnder map.tree valid.grown progress.current map.cur valid.here key,
      ← get_value_lookup valid, get_value, found, Option.bind_some]
    rw [Tree.label, labelOf, List.getElem?_eq_getElem place]
    exact ⟨_, rfl⟩
  have same : map.tree.keyAt Content.name pos = some (.VALUE, key) := by
    rw [find_child_eq] at found
    exact (map.tree.child_mem Content.name _ _ _ found).2
  have kept := keysUnder_relabel valid key value pos found
  rw [shape] at stored next ⊢
  -- No cell is added, and the one that is written over keeps its key.
  refine ⟨next, ?_, stored, ?_, ?_, ?_⟩
  · intro path
    rw [(kept path).1, Progress.after, keysOf_snoc, ← tracks.keys path]
    by_cases here : path = progress.current
    · subst here
      rw [if_neg (fun both => both.2 old)]
    · rw [if_neg (fun both => here both.1.symm)]
  · intro next follows
    have bound := tracks.inside next follows
    simpa [Tree.relabel, rewrite] using bound
  · intro cell there
    rw [Tree.along_relabel] at there
    obtain ⟨parent, located, child⟩ := tracks.siblings cell there
    refine ⟨parent, ?_, ?_⟩
    · dsimp only
      rw [Tree.locate_relabel pos ⟨.VALUE, key, value⟩ place same]
      exact located
    · rw [Tree.children_relabel]
      exact child
  · rw [Tree.along_relabel, (kept []).2]
    exact tracks.left

theorem Tracks.set_value {map : Config} {progress : Progress} (tracks : Tracks map progress)
    (key value : List Byte) :
    Tracks (set_value map key value) (progress.after (.set_value key value)) := by
  cases found : find_child map .VALUE key with
  | none => exact tracks.set_new key value found
  | some pos => exact tracks.set_old key value pos found

/-! Going into a section, and the calls that read. -/

theorem enter_iter (map : Config) (sub : List Byte) :
    (enter map sub).iter = leftOf (enter map sub).tree.cells (enter map sub).cur := by
  unfold enter
  split
  · rfl
  · rfl

theorem enter_keys {map : Config} {path : List (List Byte)} (valid : Valid map path)
    (sub : List Byte) (other : List (List Byte)) :
    keysUnder (enter map sub).tree other = keysUnder map.tree other := by
  unfold enter
  cases found : find_child map .SECTION sub with
  | none =>
      refine (keysUnder_push valid ⟨.SECTION, sub, []⟩ found other).trans (if_neg ?_)
      exact fun both => nomatch both.1
  | some pos => rfl

theorem Tracks.enter {map : Config} {progress : Progress} (tracks : Tracks map progress)
    (sub : List Byte) : Tracks (enter map sub)
      { progress with
        current := progress.current ++ [sub]
        cursor := ⟨progress.current ++ [sub],
          keysOf (progress.current ++ [sub]) progress.stored⟩ } := by
  have next := enter_valid tracks.valid sub
  have keys := enter_keys tracks.valid sub
  have along : (ConfigMap.enter map sub).tree.along (ConfigMap.enter map sub).iter =
      (ConfigMap.enter map sub).tree.children (ConfigMap.enter map sub).cur := by
    rw [enter_iter]
    exact SiblingTree.Tree.along_left _ _
  refine ⟨next, ?_, ?_, ?_, ?_, ?_⟩
  · intro path
    rw [keys, tracks.keys]
  · intro path key
    rw [enter_lookup tracks.valid, tracks.stored]
  · intro pos follows
    rw [enter_iter] at follows
    exact (ConfigMap.enter map sub).tree.inside _ pos follows
  · intro cell member
    rw [along] at member
    exact ⟨_, next.here, member⟩
  · rw [along, ← keysUnder_located next.here, keys, tracks.keys]

theorem Tracks.enter_all {map : Config} {progress : Progress} (tracks : Tracks map progress)
    (parts : List (List Byte)) : Tracks (parts.foldl ConfigMap.enter map)
      { progress with
        current := progress.current ++ parts
        cursor :=
          if parts = [] then progress.cursor
          else ⟨progress.current ++ parts,
            keysOf (progress.current ++ parts) progress.stored⟩ } := by
  induction parts generalizing map progress with
  | nil =>
      rw [if_pos rfl, List.append_nil]
      exact tracks
  | cons part rest ih =>
      have later := ih (tracks.enter part)
      rw [if_neg (List.cons_ne_nil part rest)]
      simp only [List.append_assoc, List.singleton_append] at later
      cases rest with
      | nil => exact later
      | cons other rest => exact later

theorem Tracks.set_section {map : Config} {progress : Progress} (tracks : Tracks map progress)
    (key : List Byte) :
    Tracks (set_section map key) (progress.after (.set_section key)) := by
  have root : Tracks { map with cur := 0 } { progress with current := [] } :=
    ⟨⟨tracks.valid.grown, rfl⟩, tracks.keys, tracks.stored, tracks.inside, tracks.siblings,
      tracks.left⟩
  rw [set_section_parts]
  exact root.enter_all (normalise key)

theorem Tracks.enum_value {map : Config} {progress : Progress} (tracks : Tracks map progress) :
    Tracks (enum_value map).2 (progress.after .enum_value) := by
  have keys : (map.tree.along map.iter).filterMap (valueKey map.tree) =
      ((map.tree.along map.iter).filterMap (pairAt map.tree)).map Prod.fst := by
    rw [List.map_filterMap]
    rfl
  rcases enum_value_eq map tracks.inside with
    ⟨all, ends⟩ | ⟨pos, pair, there, behind, rest, moved⟩
  · rw [ends]
    refine ⟨⟨tracks.valid.grown, tracks.valid.here⟩, tracks.keys, tracks.stored, ?_, ?_, ?_⟩
    · intro pos follows
      cases follows
    · intro cell member
      dsimp only at member
      rw [Tree.along_none] at member
      cases member
    · dsimp only [Progress.after]
      rw [Tree.along_none, tracks.left, keys, all]
      rfl
  · rw [moved]
    refine ⟨⟨tracks.valid.grown, tracks.valid.here⟩, tracks.keys, tracks.stored, ?_, ?_, ?_⟩
    · intro later follows
      exact (map.tree.older pos later follows).trans there
    · intro cell member
      exact tracks.siblings cell (behind.subset member)
    · dsimp only [Progress.after]
      rw [tracks.left, keys, rest, List.map_cons, List.tail_cons, List.map_filterMap]
      rfl

theorem Tracks.after {map : Config} {progress : Progress} (tracks : Tracks map progress)
    (last : Call) : Tracks (call map last) (progress.after last) := by
  cases last with
  | set_section key => exact tracks.set_section key
  | set_value key value => exact tracks.set_value key value
  | get_value key => exact tracks
  | enum_value => exact tracks.enum_value

theorem run_tracks (calls : List Call) : Tracks (run config_map calls) (progress calls) := by
  induction calls using List.reverseRecOn with
  | nil => exact config_map_tracks
  | append_singleton front last ih =>
      rw [progress_snoc, run, List.foldl_append]
      exact ih.after last

theorem stored_entries (calls : List Call) (progress : Progress) :
    (calls.foldl Progress.after progress).stored =
      progress.stored ++ entries progress.current calls := by
  induction calls generalizing progress with
  | nil => simp [entries]
  | cons first later ih =>
      rw [List.foldl_cons, ih]
      cases first with
      | set_section key => rfl
      | set_value key value => simp [Progress.after, entries]
      | get_value key => rfl
      | enum_value => rfl

/-! The listing of a section. -/

theorem Tracks.pairs {map : Config} {progress : Progress} (tracks : Tracks map progress) :
    (map.tree.along map.iter).filterMap (pairAt map.tree) =
      progress.cursor.left.filterMap fun key =>
        (lastValue progress.cursor.section_ key progress.stored).map fun value =>
          (key, value) := by
  rw [tracks.left, List.filterMap_filterMap]
  apply List.filterMap_congr
  intro cell member
  obtain ⟨pos, located, child⟩ := tracks.siblings cell member
  cases read : pairAt map.tree cell with
  | none => simp [valueKey, read]
  | some pair =>
      have stored := (mem_pairs map.tree tracks.valid.grown _ pos located pair.1 pair.2).mp
        (List.mem_filterMap.mpr ⟨cell, child, read⟩)
      rw [tracks.stored] at stored
      simp [valueKey, read, stored]

theorem Tracks.nodup {map : Config} {progress : Progress} (tracks : Tracks map progress) :
    ((map.tree.along map.iter).filterMap (pairAt map.tree)).Nodup := by
  cases located : map.tree.locate Content.name (sections progress.cursor.section_) with
  | none =>
      apply pairs_nodup map.tree tracks.valid.grown map.iter 0
      intro cell member
      obtain ⟨pos, there, _⟩ := tracks.siblings cell member
      rw [located] at there
      cases there
  | some pos =>
      apply pairs_nodup map.tree tracks.valid.grown map.iter pos
      intro cell member
      obtain ⟨other, there, child⟩ := tracks.siblings cell member
      rw [located] at there
      cases there
      exact child

/-- The listing has the pairs of a section when those ahead of the cursor are its pairs. -/
theorem Tracks.lists_iff {map : Config} {progress : Progress} (tracks : Tracks map progress)
    (path : List (List Byte)) : ListsSection map path progress.stored ↔
      ∀ key value, (key, value) ∈ (map.tree.along map.iter).filterMap (pairAt map.tree) ↔
        lastValue path key progress.stored = some value := by
  have listed := listed_along map tracks.inside
  constructor
  · rintro ⟨pairs, other, _, all⟩
    rw [listed.unique other]
    exact all
  · intro all
    exact ⟨_, listed, tracks.nodup, all⟩

/-- After `set_section` the listing is that of the section exactly when the path has a component
or the pairs that are still ahead of the cursor happen to be those of the root. -/
theorem lists_section_iff (calls : List Call) (key : List Byte) :
    ListsSection (set_section (run config_map calls) key) (normalise key) (entries [] calls) ↔
      normalise key ≠ [] ∨ RootAhead calls := by
  have before := run_tracks calls
  have tracks := before.set_section key
  have stored : (progress calls).stored = entries [] calls :=
    stored_entries calls ⟨[], [], ⟨[], []⟩⟩
  have same : ((progress calls).after (.set_section key)).stored = entries [] calls := stored
  rw [← same, tracks.lists_iff, tracks.pairs, same]
  by_cases root : normalise key = []
  · rw [root]
    simp only [Progress.after, root, if_true, ne_eq, not_true_eq_false, false_or, RootAhead, ahead,
      stored]
  · refine iff_of_true ?_ (.inl root)
    intro name value
    have key_iff := mem_keysUnder _ tracks.valid.grown _ _ tracks.valid.here name
    rw [tracks.keys, tracks.stored, same] at key_iff
    simp only [Progress.after, if_neg root, List.mem_filterMap, Option.map_eq_some_iff,
      Prod.mk.injEq]
    constructor
    · rintro ⟨_, _, _, found, rfl, rfl⟩
      exact found
    · intro found
      have member := key_iff.mpr ⟨value, found⟩
      simp only [Progress.after, stored] at member ⊢
      exact ⟨name, member, value, found, rfl, rfl⟩

/-- A value of the root is set, and the root is gone back to: nothing is listed. -/
theorem root_not_listed :
    ¬ ∀ (calls : List Call) (key : List Byte),
      ListsSection (set_section (run config_map calls) key) (normalise key)
        (entries [] calls) := by
  intro all
  obtain ⟨pairs, listed, _, members⟩ := all [.set_value [107] [118]] []
  have minus_one :
      (enum_value (set_section (run config_map [.set_value [107] [118]]) [])).1 = none := by
    decide +kernel
  have ends : enum_value (set_section (run config_map [.set_value [107] [118]]) []) =
      (none, (enum_value (set_section (run config_map [.set_value [107] [118]]) [])).2) :=
    Prod.ext minus_one rfl
  have nothing : pairs = [] := listed.unique (.done ends)
  have stored : lastValue (normalise []) [107] (entries [] [.set_value [107] [118]]) =
      some [118] := by
    decide +kernel
  have member := (members [107] [118]).mpr stored
  rw [nothing] at member
  cases member

end AsrServer.ConfigMap
