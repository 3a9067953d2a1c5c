import TreePass.Forest.Basic

/-!
# Walking a forest

A cursor is the state of a walk over a forest: the nodes whose turn comes next,
nearest first. A step hands out the first of them and puts its children in its
place, so that one node fewer is to come.
-/

namespace TreePass

/-- The state of a walk: the subtrees that are still to come. -/
structure Cursor where
  stack : List Node

namespace Cursor

/-- Hands out the next node and goes on with its children. -/
def next? (cursor : Cursor) : Option (Node × Cursor) :=
  match cursor.stack with
  | [] => none
  | node :: rest => some (node, ⟨Keyed.values node.children ++ rest⟩)

/-- The number of nodes still to come. -/
def pending (cursor : Cursor) : Nat :=
  cursor.stack.foldr (fun node count => node.size + count) 0

/-- Children that come before a stack add their nodes to those of the stack. -/
theorem foldr_size_values (children : List (String × Node)) (count : Nat) :
    (Keyed.values children).foldr (fun node count => node.size + count) count =
      Node.sizeAll children + count := by
  induction children with
  | nil => simp [Keyed.values, Node.sizeAll]
  | cons entry rest ih =>
      obtain ⟨key, child⟩ := entry
      simp only [Keyed.values] at ih
      simp only [Keyed.values, List.map_cons, List.foldr_cons, Node.sizeAll, ih]
      omega

/-- A step leaves one node fewer to come. -/
theorem pending_next? {cursor after : Cursor} {node : Node}
    (hnext : cursor.next? = some (node, after)) : after.pending + 1 = cursor.pending := by
  obtain ⟨stack⟩ := cursor
  cases stack with
  | nil => simp [next?] at hnext
  | cons top rest =>
      simp only [next?, Option.some.injEq, Prod.mk.injEq] at hnext
      obtain ⟨rfl, rfl⟩ := hnext
      obtain ⟨name, documentation, attributes, members, children, path⟩ := top
      simp only [pending, List.foldr_append, foldr_size_values, List.foldr_cons, Node.size]
      omega

def toList (cursor : Cursor) : List Node :=
  match _hnext : cursor.next? with
  | none => []
  | some (node, after) => node :: after.toList
termination_by cursor.pending
decreasing_by
  have := pending_next? _hnext
  omega

end Cursor

/-- The walk over a forest, before its first step. -/
def Forest.cursor (forest : Forest) : Cursor := ⟨forest.roots⟩

end TreePass
