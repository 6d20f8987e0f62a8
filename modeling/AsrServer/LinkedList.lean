import Mathlib.Logic.Relation
import AsrServer.WaitList

/-!
`linked_list_t`: any sequence of insertions and removals against the same on an ordinary
list. `_head` is at the address `head`, and the links of a node that is not in the list may
be anything.
-/

namespace AsrServer.LinkedList

open AsrServer.Ring WaitList

variable {Node : Type*} [DecidableEq Node]

def add_prev (node cur : Node) (links : Links Node) : Links Node := insertPrev node cur links

def add_next (node cur : Node) (links : Links Node) : Links Node := insertNext node cur links

/-- `next`; none is NULL. -/
def next (head node : Node) (links : Links Node) : Option Node := entry head (links.next node)

def prev (head node : Node) (links : Links Node) : Option Node := entry head (links.prev node)

inductive Call (Node : Type*) where
  | add (node : Node)
  | add_prev (node cur : Node)
  | add_next (node cur : Node)
  | del (node : Node)

def call (head : Node) (links : Links Node) : Call Node → Links Node
  | .add node => WaitList.add head node links
  | .add_prev node cur => LinkedList.add_prev node cur links
  | .add_next node cur => LinkedList.add_next node cur links
  | .del node => WaitList.del node links

/-! The same on a list. -/

def insert_before (node cur : Node) : List Node → List Node
  | [] => []
  | item :: rest =>
      if item = cur then node :: item :: rest else item :: insert_before node cur rest

def insert_after (node cur : Node) : List Node → List Node
  | [] => []
  | item :: rest =>
      if item = cur then item :: node :: rest else item :: insert_after node cur rest

def listed (items : List Node) : Call Node → List Node
  | .add node => node :: items
  | .add_prev node cur => insert_before node cur items
  | .add_next node cur => insert_after node cur items
  | .del node => items.erase node

/-- A node not in the list is inserted, next to one in it, or one in it is removed. -/
def Allowed (head : Node) (items : List Node) : Call Node → Prop
  | .add node => node ∉ head :: items
  | .add_prev node cur | .add_next node cur => node ∉ head :: items ∧ cur ∈ items
  | .del node => node ∈ items

def Sequence (head : Node) : List Node → List (Call Node) → Prop
  | _, [] => True
  | items, made :: later => Allowed head items made ∧ Sequence head (listed items made) later

def walk (head : Node) (links : Links Node) : Nat → Option Node → List Node
  | 0, _ => []
  | _ + 1, none => []
  | fuel + 1, some node => node :: walk head links fuel (next head node links)

def Holds (node : Node) (held : Prop) : Call Node → Prop
  | .add other | .add_prev other _ | .add_next other _ => node = other ∨ held
  | .del other => node ≠ other ∧ held

def Present (node : Node) (calls : List (Call Node)) : Prop := calls.foldl (Holds node) False

structure Agrees (head : Node) (links : Links Node) (items : List Node) : Prop where
  inverse : ∀ node, Relation.ReflTransGen (fun one other => links.next one = other) head node →
    links.prev (links.next node) = node ∧ links.next (links.prev node) = node
  once : items.Nodup
  walked : ∀ fuel, items.length ≤ fuel → walk head links fuel (entry head (links.next head)) = items
  round : ∀ node, Relation.ReflTransGen (fun one other => links.next one = other) head node ↔
    node = head ∨ node ∈ items
  empty : is_empty head links = true ↔ items = []

/-! The list operations at a place. -/

theorem insert_before_at (node cur : Node) (front back : List Node) (first : cur ∉ front) :
    insert_before node cur (front ++ cur :: back) = front ++ node :: cur :: back := by
  induction front with
  | nil => exact if_pos rfl
  | cons item front ih =>
      rw [List.mem_cons, not_or] at first
      rw [List.cons_append, insert_before, if_neg (Ne.symm first.1), ih first.2, List.cons_append]

theorem insert_after_at (node cur : Node) (front back : List Node) (first : cur ∉ front) :
    insert_after node cur (front ++ cur :: back) = front ++ cur :: node :: back := by
  induction front with
  | nil => exact if_pos rfl
  | cons item front ih =>
      rw [List.mem_cons, not_or] at first
      rw [List.cons_append, insert_after, if_neg (Ne.symm first.1), ih first.2, List.cons_append]

/-! One call. -/

theorem call_ring (head : Node) (links : Links Node) (items : List Node) (made : Call Node)
    (ring : IsRing links head items) (allowed : Allowed head items made) :
    IsRing (call head links made) head (listed items made) := by
  cases made with
  | add node => exact ring.insert allowed
  | add_prev node cur =>
      obtain ⟨fresh, member⟩ := allowed
      obtain ⟨front, back, rfl, first⟩ := List.eq_append_cons_of_mem member
      rw [listed, insert_before_at node cur front back first]
      exact ring.insertPrev fresh
  | add_next node cur =>
      obtain ⟨fresh, member⟩ := allowed
      obtain ⟨front, back, rfl, first⟩ := List.eq_append_cons_of_mem member
      rw [listed, insert_after_at node cur front back first]
      exact ring.insertNext fresh
  | del node =>
      obtain ⟨front, back, rfl, first⟩ := List.eq_append_cons_of_mem allowed
      rw [listed, List.erase_append_right _ first, List.erase_cons_head]
      exact ring.remove

theorem listed_mem (head node : Node) (items : List Node) (made : Call Node)
    (distinct : items.Nodup) (allowed : Allowed head items made) :
    node ∈ listed items made ↔ Holds node (node ∈ items) made := by
  cases made with
  | add other => exact List.mem_cons
  | add_prev other cur =>
      obtain ⟨front, back, rfl, first⟩ := List.eq_append_cons_of_mem allowed.2
      rw [listed, insert_before_at other cur front back first, Holds]
      simp only [List.mem_append, List.mem_cons]
      exact or_left_comm
  | add_next other cur =>
      obtain ⟨front, back, rfl, first⟩ := List.eq_append_cons_of_mem allowed.2
      rw [listed, insert_after_at other cur front back first, Holds]
      simp only [List.mem_append, List.mem_cons]
      rw [or_left_comm (a := node = cur), or_left_comm]
  | del other => exact distinct.mem_erase_iff

/-! A sequence of calls. -/

theorem calls_ring (head : Node) (links : Links Node) (items : List Node)
    (calls : List (Call Node)) (ring : IsRing links head items)
    (sequence : Sequence head items calls) :
    IsRing (calls.foldl (call head) links) head (calls.foldl listed items) := by
  induction calls generalizing links items with
  | nil => exact ring
  | cons made later ih =>
      exact ih _ _ (call_ring head links items made ring sequence.1) sequence.2

theorem calls_present (head node : Node) (links : Links Node) (items : List Node) (held : Prop)
    (calls : List (Call Node)) (ring : IsRing links head items)
    (sequence : Sequence head items calls) (holds : node ∈ items ↔ held) :
    node ∈ calls.foldl listed items ↔ calls.foldl (Holds node) held := by
  induction calls generalizing links items held with
  | nil => exact holds
  | cons made later ih =>
      apply ih _ _ _ (call_ring head links items made ring sequence.1) sequence.2
      have distinct := (List.nodup_cons.mp ring.nodup).2
      rw [listed_mem head node items made distinct sequence.1, propext holds]

/-! What a ring shows. -/

omit [DecidableEq Node] in
theorem linked_reaches (links : Links Node) (first last : Node) (items : List Node)
    (linked : Linked links first items last) :
    ∀ node ∈ items, Relation.ReflTransGen (fun one other => links.next one = other) first node := by
  induction items generalizing first with
  | nil => simp
  | cons item rest ih =>
      have step := Relation.ReflTransGen.single (r := fun one other => links.next one = other)
        linked.1
      intro node member
      rcases List.mem_cons.mp member with rfl | later
      · exact step
      · exact step.trans (ih item linked.2.2 node later)

omit [DecidableEq Node] in
theorem ring_round (links : Links Node) (head node : Node) (items : List Node)
    (ring : IsRing links head items) :
    Relation.ReflTransGen (fun one other => links.next one = other) head node ↔
      node = head ∨ node ∈ items := by
  constructor
  · intro path
    induction path with
    | refl => exact .inl rfl
    | tail path step ih =>
        subst step
        rcases ih with rfl | among
        · have next := linked_next_mem links _ _ items ring.linked
          rw [List.mem_append, List.mem_singleton] at next
          exact next.symm
        · obtain ⟨front, back, rfl⟩ := List.append_of_mem among
          have behind := ((linked_append links _ _ _ front back).mp ring.linked).2
          have next := linked_next_mem links _ _ back behind
          rw [List.mem_append, List.mem_singleton] at next
          exact next.symm.imp_right fun later =>
            List.mem_append_right _ (List.mem_cons_of_mem _ later)
  · rintro (rfl | among)
    · exact .refl
    · exact linked_reaches links head head items ring.linked node among

theorem walk_linked (head first : Node) (links : Links Node) (items : List Node)
    (linked : Linked links first items head) (apart : head ∉ items) (fuel : Nat)
    (enough : items.length ≤ fuel) :
    walk head links fuel (entry head (links.next first)) = items := by
  induction items generalizing first fuel with
  | nil =>
      rw [linked.1, entry, if_pos rfl]
      cases fuel <;> rfl
  | cons item rest ih =>
      rw [List.mem_cons, not_or] at apart
      rw [List.length_cons] at enough
      obtain ⟨fuel, rfl⟩ := Nat.exists_eq_add_of_le' (Nat.le_trans (Nat.le_add_left 1 _) enough)
      rw [linked.1, entry, if_neg (Ne.symm apart.1), walk, next,
        ih item linked.2.2 apart.2 fuel (by omega)]

theorem ring_agrees (head : Node) (links : Links Node) (items : List Node)
    (ring : IsRing links head items) : Agrees head links items where
  inverse := by
    intro node path
    exact ring.inverse (List.mem_cons.mpr ((ring_round links head node items ring).mp path))
  once := (List.nodup_cons.mp ring.nodup).2
  walked := walk_linked head head links items ring.linked (List.nodup_cons.mp ring.nodup).1
  round := fun node => ring_round links head node items ring
  empty := by rw [is_empty, beq_iff_eq, ring.empty_iff]

/-- The ring is the list that the same calls make, of the nodes inserted and not removed. -/
theorem list_kept (head : Node) (links : Links Node) (calls : List (Call Node))
    (sequence : Sequence head [] calls) :
    Agrees head (calls.foldl (call head) (emptied head links)) (calls.foldl listed []) ∧
      ∀ node, node ∈ calls.foldl listed [] ↔ Present node calls := by
  have empty : IsRing (emptied head links) head [] := alone _ head (by simp [emptied])
    (by simp [emptied])
  constructor
  · exact ring_agrees head _ _ (calls_ring head _ [] calls empty sequence)
  · intro node
    exact calls_present head node _ [] False calls empty sequence (by simp)

theorem list_kept_example :
    Agrees 0 ([Call.add 1, .add_next 2 1, .add_prev 3 2, .del 1].foldl (call 0)
      (emptied 0 ⟨fun _ => 7, fun _ => 8⟩)) [3, 2] := by
  have sequence : Sequence 0 [] [Call.add 1, .add_next 2 1, .add_prev 3 2, .del 1] := by
    simp [Sequence, Allowed, listed, insert_after, insert_before]
  exact (list_kept 0 ⟨fun _ => 7, fun _ => 8⟩ _ sequence).1

end AsrServer.LinkedList
