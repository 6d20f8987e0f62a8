import Mathlib.Logic.Function.Basic
import Mathlib.Data.List.Nodup

/-!
Doubly linked rings in a memory of links. A node is an address; `next` and `prev`
hold what the two links at each address point at. `IsRing links head items` says
that the links starting at `head` go through `items` in this order and back to `head`,
and that the links the other way undo them. Insertion and removal write the
links one after the other, so an address that plays two parts (as in an
empty ring, where the neighbours are one node) is covered by the same code.
-/

namespace AsrServer.Ring

variable {Node : Type*} [DecidableEq Node]

structure Links (Node : Type*) where
  next : Node → Node
  prev : Node → Node

def Links.setNext (links : Links Node) (node target : Node) : Links Node :=
  { links with next := Function.update links.next node target }

def Links.setPrev (links : Links Node) (node target : Node) : Links Node :=
  { links with prev := Function.update links.prev node target }

@[simp] theorem setNext_prev (links : Links Node) (node target : Node) :
    (links.setNext node target).prev = links.prev := rfl

@[simp] theorem setPrev_next (links : Links Node) (node target : Node) :
    (links.setPrev node target).next = links.next := rfl

@[simp] theorem setNext_next (links : Links Node) (node target : Node) :
    (links.setNext node target).next = Function.update links.next node target := rfl

@[simp] theorem setPrev_prev (links : Links Node) (node target : Node) :
    (links.setPrev node target).prev = Function.update links.prev node target := rfl

/-- From `first` through `items` to `last`, linked both ways. -/
def Linked (links : Links Node) (first : Node) : List Node → Node → Prop
  | [], last => links.next first = last ∧ links.prev last = first
  | item :: rest, last =>
      links.next first = item ∧ links.prev item = first ∧ Linked links item rest last

structure IsRing (links : Links Node) (head : Node) (items : List Node) : Prop where
  linked : Linked links head items head
  nodup : (head :: items).Nodup

omit [DecidableEq Node] in
theorem linked_append (links : Links Node) (first middle last : Node) (front back : List Node) :
    Linked links first (front ++ middle :: back) last ↔
      Linked links first front middle ∧ Linked links middle back last := by
  induction front generalizing first with
  | nil => simp [Linked, and_assoc]
  | cons item rest ih => simp [Linked, ih, and_assoc]

omit [DecidableEq Node] in
theorem linked_frame (links other : Links Node) (first last : Node) (items : List Node)
    (nexts : ∀ node ∈ first :: items, other.next node = links.next node)
    (prevs : ∀ node ∈ items ++ [last], other.prev node = links.prev node)
    (linked : Linked links first items last) : Linked other first items last := by
  induction items generalizing first with
  | nil =>
      constructor
      · rw [nexts first (by simp)]
        exact linked.1
      · rw [prevs last (by simp)]
        exact linked.2
  | cons item rest ih =>
      constructor
      · rw [nexts first (by simp)]
        exact linked.1
      · constructor
        · rw [prevs item (by simp)]
          exact linked.2.1
        · apply ih item
          · intro node member
            exact nexts node (List.mem_cons_of_mem _ member)
          · intro node member
            exact prevs node (List.mem_cons_of_mem _ member)
          · exact linked.2.2

omit [DecidableEq Node] in
theorem alone (links : Links Node) (head : Node) (next : links.next head = head)
    (prev : links.prev head = head) : IsRing links head [] := by
  constructor
  · exact ⟨next, prev⟩
  · simp

omit [DecidableEq Node] in
theorem IsRing.empty_iff {links : Links Node} {head : Node} {items : List Node}
    (ring : IsRing links head items) : links.next head = head ↔ items = [] := by
  cases items with
  | nil => simp [ring.linked.1]
  | cons item rest =>
      have apart := (List.nodup_cons.mp ring.nodup).1
      rw [ring.linked.1]
      simp only [reduceCtorEq, iff_false]
      intro same
      exact apart (by simp [same])

omit [DecidableEq Node] in
theorem IsRing.last {links : Links Node} {head item : Node} {front : List Node}
    (ring : IsRing links head (front ++ [item])) : links.prev head = item :=
  ((linked_append links head item head front []).mp ring.linked).2.2

omit [DecidableEq Node] in
theorem linked_prev_mem (links : Links Node) (first last : Node) (items : List Node)
    (linked : Linked links first items last) : links.prev last ∈ first :: items := by
  induction items generalizing first with
  | nil => simp [linked.2]
  | cons item rest ih => exact List.mem_cons_of_mem _ (ih item linked.2.2)

omit [DecidableEq Node] in
theorem linked_next_mem (links : Links Node) (first last : Node) (items : List Node)
    (linked : Linked links first items last) : links.next first ∈ items ++ [last] := by
  cases items with
  | nil => simp [linked.1]
  | cons item rest => simp [linked.1]

/-- Put `node` behind `cur`: the four assignments, in their order. -/
def insertNext (node cur : Node) (links : Links Node) : Links Node :=
  let links := links.setPrev (links.next cur) node
  let links := links.setNext node (links.next cur)
  let links := links.setPrev node cur
  links.setNext cur node

def remove (node : Node) (links : Links Node) : Links Node :=
  let links := links.setPrev (links.next node) (links.prev node)
  links.setNext (links.prev node) (links.next node)

/-- Put `node` ahead of `cur`: the four assignments, in their order. -/
def insertPrev (node cur : Node) (links : Links Node) : Links Node :=
  let links := links.setNext (links.prev cur) node
  let links := links.setPrev node (links.prev cur)
  let links := links.setNext node cur
  links.setPrev cur node

theorem IsRing.insert {links : Links Node} {head node : Node} {items : List Node}
    (ring : IsRing links head items) (fresh : node ∉ head :: items) :
    IsRing (insertNext node head links) head (node :: items) := by
  obtain ⟨apart, absent⟩ := not_or.mp (mt List.mem_cons.mpr fresh)
  obtain ⟨outside, distinct⟩ := List.nodup_cons.mp ring.nodup
  constructor
  · constructor
    · simp [insertNext]
    · cases items with
      | nil =>
          have next := ring.linked.1
          simp [Linked, insertNext, next, apart, Ne.symm apart]
      | cons item rest =>
          have next := ring.linked.1
          obtain ⟨other, new⟩ := not_or.mp (mt List.mem_cons.mpr absent)
          obtain ⟨first, inside⟩ := not_or.mp (mt List.mem_cons.mpr outside)
          constructor
          · simp [insertNext]
          · constructor
            · simp [insertNext, next, apart]
            · constructor
              · simp [insertNext, next, Ne.symm other]
              · -- Behind the first item no link is written.
                apply linked_frame links _ item head rest _ _ ring.linked.2.2
                · intro link member
                  have old : link ≠ node := fun same => absent (same ▸ member)
                  have item_link : link ≠ head := fun same => outside (same ▸ member)
                  simp [insertNext, old, item_link]
                · intro link member
                  have old : link ≠ node := by
                    intro same
                    rcases List.mem_append.mp member with among | ends
                    · exact new (same ▸ among)
                    · exact apart (same ▸ List.mem_singleton.mp ends)
                  have later : link ≠ item := by
                    intro same
                    rcases List.mem_append.mp member with among | ends
                    · exact (List.nodup_cons.mp distinct).1 (same ▸ among)
                    · exact first (same ▸ (List.mem_singleton.mp ends).symm)
                  simp [insertNext, next, old, later]
  · apply List.nodup_cons.mpr
    constructor
    · simp [Ne.symm apart, outside]
    · exact List.nodup_cons.mpr ⟨absent, distinct⟩

omit [DecidableEq Node] in
theorem IsRing.rotate {links : Links Node} {head cur : Node} {front back : List Node}
    (ring : IsRing links head (front ++ cur :: back)) :
    IsRing links cur (back ++ head :: front) := by
  obtain ⟨before, behind⟩ := (linked_append links head cur head front back).mp ring.linked
  constructor
  · exact (linked_append links cur head cur back front).mpr ⟨behind, before⟩
  · have order : (cur :: (back ++ head :: front)).Perm (head :: (front ++ cur :: back)) :=
      @List.perm_append_comm _ (cur :: back) (head :: front)
    exact order.nodup_iff.mpr ring.nodup

theorem IsRing.insertNext {links : Links Node} {head cur node : Node} {front back : List Node}
    (ring : IsRing links head (front ++ cur :: back))
    (fresh : node ∉ head :: (front ++ cur :: back)) :
    IsRing (insertNext node cur links) head (front ++ cur :: node :: back) := by
  have absent : node ∉ cur :: (back ++ head :: front) := by
    simp only [List.mem_cons, List.mem_append, not_or] at fresh ⊢
    exact ⟨fresh.2.2.1, fresh.2.2.2, fresh.1, fresh.2.1⟩
  have turned : IsRing (Ring.insertNext node cur links) cur ((node :: back) ++ head :: front) :=
    ring.rotate.insert absent
  exact turned.rotate

/-- The neighbour ahead is the same after the first assignment, which is to another link. -/
theorem insertPrev_eq (node cur : Node) (links : Links Node)
    (linked : links.next (links.prev cur) = cur) (apart : node ≠ cur)
    (new : node ≠ links.prev cur) :
    insertPrev node cur links = Ring.insertNext node (links.prev cur) links := by
  simp only [insertPrev, Ring.insertNext, Links.setNext, Links.setPrev, linked, Links.mk.injEq]
  constructor
  · exact Function.update_comm (Ne.symm new) _ _ _
  · rw [Function.update_comm (Ne.symm apart)]

omit [DecidableEq Node] in
theorem IsRing.next_head {links : Links Node} {head : Node} {items : List Node}
    (ring : IsRing links head items) :
    links.prev (links.next head) = head ∧ links.next (links.prev head) = head := by
  constructor
  · cases items with
    | nil => rw [ring.linked.1, ring.linked.2]
    | cons item rest => rw [ring.linked.1, ring.linked.2.1]
  · rcases List.eq_nil_or_concat items with rfl | ⟨front, item, rfl⟩
    · rw [ring.linked.2, ring.linked.1]
    · rw [List.concat_eq_append] at ring
      rw [ring.last]
      exact ((linked_append links head item head front []).mp ring.linked).2.1

omit [DecidableEq Node] in
theorem IsRing.inverse {links : Links Node} {head node : Node} {items : List Node}
    (ring : IsRing links head items) (member : node ∈ head :: items) :
    links.prev (links.next node) = node ∧ links.next (links.prev node) = node := by
  rcases List.mem_cons.mp member with rfl | among
  · exact ring.next_head
  · obtain ⟨front, back, rfl⟩ := List.append_of_mem among
    exact ring.rotate.next_head

theorem IsRing.insertPrev {links : Links Node} {head cur node : Node} {front back : List Node}
    (ring : IsRing links head (front ++ cur :: back))
    (fresh : node ∉ head :: (front ++ cur :: back)) :
    IsRing (insertPrev node cur links) head (front ++ node :: cur :: back) := by
  have member : cur ∈ head :: (front ++ cur :: back) := by simp
  have before : links.prev cur ∈ head :: front :=
    linked_prev_mem links head cur front
      ((linked_append links head cur head front back).mp ring.linked).1
  have apart : node ≠ cur := fun same => fresh (same ▸ member)
  have new : node ≠ links.prev cur := by
    intro same
    rw [← same] at before
    exact fresh ((List.mem_cons.mp before).elim (fun head => by simp [head])
      (fun ahead => by simp [ahead]))
  rw [insertPrev_eq node cur links (ring.inverse member).2 apart new]
  rcases List.eq_nil_or_concat front with rfl | ⟨front, item, rfl⟩
  · rw [ring.linked.2.1]
    exact ring.insert fresh
  · rw [List.concat_eq_append, List.append_assoc] at ring fresh ⊢
    have last : links.prev cur = item := by
      have linked := ((linked_append links head item head front (cur :: back)).mp ring.linked).2
      exact linked.2.1
    rw [last]
    exact ring.insertNext fresh

/-- The second assignment reads `node.prev` after the first has been made. -/
theorem remove_links (links : Links Node) (node : Node) (apart : links.next node ≠ node) :
    remove node links =
      { next := Function.update links.next (links.prev node) (links.next node)
        prev := Function.update links.prev (links.next node) (links.prev node) } := by
  simp [remove, Links.setNext, Links.setPrev, Function.update_of_ne (Ne.symm apart)]

theorem linked_remove (links : Links Node) (first last node : Node) (front back : List Node)
    (linked : Linked links first (front ++ node :: back) last)
    (distinct : (first :: (front ++ node :: back)).Nodup)
    (outside : last ∉ front ++ node :: back) :
    Linked (remove node links) first (front ++ back) last := by
  -- What comes behind the node is another one, so `remove` does not read a link it has written.
  have apart : links.next node ≠ node := by
    intro same
    have after := linked_next_mem links node last back
      ((linked_append links first node last front back).mp linked).2
    rw [same] at after
    rcases List.mem_append.mp after with among | ends
    · have later := (List.nodup_append.mp (List.nodup_cons.mp distinct).2).2.1
      exact (List.nodup_cons.mp later).1 among
    · exact outside (by simp [← List.mem_singleton.mp ends])
  rw [remove_links links node apart]
  clear apart
  -- On the items ahead of the node, down to its own neighbours.
  induction front generalizing first with
  | nil =>
      obtain ⟨next, prev, behind⟩ := linked
      obtain ⟨apart, others⟩ := List.nodup_cons.mp distinct
      cases back with
      | nil =>
          obtain ⟨leads, returns⟩ := behind
          simp [Linked, prev, leads]
      | cons item rest =>
          obtain ⟨leads, returns, later⟩ := behind
          have tail := List.nodup_cons.mp (List.nodup_cons.mp others).2
          constructor
          · simp [prev, leads]
          · constructor
            · simp [prev, leads]
            · apply linked_frame links _ item last rest _ _ later
              · intro link member
                have still : link ≠ first := fun same => apart (by simp [← same, member])
                simp [prev, still]
              · intro link member
                have still : link ≠ item := by
                  intro same
                  rcases List.mem_append.mp member with among | ends
                  · exact tail.1 (same ▸ among)
                  · exact outside (by simp [← List.mem_singleton.mp ends, same])
                simp [leads, still]
  | cons item rest ih =>
      obtain ⟨next, prev, later⟩ := linked
      obtain ⟨apart, others⟩ := List.nodup_cons.mp distinct
      have shape := (linked_append links item node last rest back).mp later
      have before := linked_prev_mem links item node rest shape.1
      have after := linked_next_mem links node last back shape.2
      constructor
      · -- The predecessor of `node` comes behind `first`.
        have still : first ≠ links.prev node := by
          intro same
          rw [← same] at before
          exact apart (List.mem_append_left _ before)
        simp [next, still]
      · constructor
        · have still : item ≠ links.next node := by
            intro same
            rw [← same] at after
            rcases List.mem_append.mp after with among | ends
            · exact (List.nodup_cons.mp others).1 (by simp [among])
            · exact outside (by simp [← List.mem_singleton.mp ends])
          simp [prev, still]
        · apply ih item later others
          intro member
          exact outside (List.mem_cons_of_mem _ member)

theorem IsRing.remove {links : Links Node} {head node : Node} {front back : List Node}
    (ring : IsRing links head (front ++ node :: back)) :
    IsRing (remove node links) head (front ++ back) := by
  have outside := (List.nodup_cons.mp ring.nodup).1
  constructor
  · exact linked_remove links head head node front back ring.linked ring.nodup outside
  · apply List.Nodup.sublist _ ring.nodup
    simp

end AsrServer.Ring
