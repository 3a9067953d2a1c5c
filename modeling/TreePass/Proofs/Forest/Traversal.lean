import Mathlib.Logic.Function.Iterate
import TreePass.Proofs.Forest.Addressing

/-!
# Walks call by call

A call takes one node from the stack of a walk and puts all its children there, so the
stack may get longer while the walk gets shorter. What measures the walk is what the stack
has still to give, node by node from the top down. A call hands out the first node of that
and leaves the rest, whatever is on the stack, and so a walk over a forest is the plain
recursion over its nodes.
-/

namespace TreePass

namespace Cursor

variable {cursor : Cursor}

/-- The cursor after a call. At the end of the walk it stays where it is. -/
def advance (cursor : Cursor) : Cursor :=
  (cursor.next?.map Prod.snd).getD cursor

/-- What the stack has still to give. -/
def remaining (cursor : Cursor) : List Node :=
  cursor.stack.flatMap Node.preorder

theorem remaining_of_next? {node : Node} {after : Cursor}
    (hnext : cursor.next? = some (node, after)) : cursor.remaining = node :: after.remaining := by
  obtain ⟨stack⟩ := cursor
  cases stack with
  | nil => simp [next?] at hnext
  | cons top rest =>
      simp only [next?, Option.some.injEq, Prod.mk.injEq] at hnext
      obtain ⟨rfl, rfl⟩ := hnext
      -- The children take the place of the top, so its pre-order comes before the rest.
      simp [remaining, top.preorder_eq]

theorem next?_eq_none_iff : cursor.next? = none ↔ cursor.remaining = [] := by
  obtain ⟨stack⟩ := cursor
  cases stack with
  | nil => simp [next?, remaining]
  | cons top rest => simp [next?, remaining, top.preorder_eq]

theorem head?_remaining (cursor : Cursor) :
    cursor.remaining.head? = cursor.next?.map Prod.fst := by
  cases hnext : cursor.next? with
  | none => simp [next?_eq_none_iff.mp hnext]
  | some handed => simp [remaining_of_next? hnext]

theorem remaining_advance (cursor : Cursor) : cursor.advance.remaining = cursor.remaining.tail := by
  cases hnext : cursor.next? with
  | none => simp [advance, hnext, next?_eq_none_iff.mp hnext]
  | some handed => simp [advance, hnext, remaining_of_next? hnext]

theorem remaining_iterate (cursor : Cursor) (count : Nat) :
    (advance^[count] cursor).remaining = cursor.remaining.drop count := by
  induction count with
  | zero => rfl
  | succ count ih =>
      rw [Function.iterate_succ_apply', remaining_advance, ih, List.tail_drop]

/-- The sizes on the stack add up to the number of nodes that it has still to give. -/
theorem pending_eq_length (cursor : Cursor) : cursor.pending = cursor.remaining.length := by
  induction cursor using toList.induct with
  | case1 cursor hdone =>
      obtain ⟨stack⟩ := cursor
      cases stack with
      | nil => rfl
      | cons top rest => simp [next?] at hdone
  | case2 cursor node after hnext ih =>
      rw [← pending_next? hnext, remaining_of_next? hnext, ih, List.length_cons]

end Cursor

namespace Forest

/-- A walk over a forest is the recursion in pre-order. The calls hand out the roots in their
order, each followed at once by what is in its children, in the order of the map and by the
same recursion; they come to an end after as many nodes as there are and no sooner. At any
time what is still to come is what the stack holds, one pre-order after the other from the
top down, and the sizes on the stack add up to the number of calls that are left. -/
theorem calls_preorder (forest : Forest) :
    (∀ count, (Cursor.advance^[count] forest.cursor).next?.map Prod.fst = forest.nodes[count]?) ∧
      (∀ count, (Cursor.advance^[count] forest.cursor).next? = none ↔ forest.nodeCount ≤ count) ∧
      (forest.nodes = forest.roots.flatMap fun root =>
        root :: (Keyed.values root.children).flatMap Node.preorder) ∧
      (∀ node : Node, node.preorder =
        node :: (Keyed.values node.children).flatMap Node.preorder) ∧
      ∀ count, forest.nodes.drop count = (Cursor.advance^[count] forest.cursor).toList ∧
        (Cursor.advance^[count] forest.cursor).toList =
          (Cursor.advance^[count] forest.cursor).stack.flatMap Node.preorder ∧
        (Cursor.advance^[count] forest.cursor).pending = forest.nodeCount - count := by
  have hremaining (count : Nat) : (Cursor.advance^[count] forest.cursor).remaining =
      forest.nodes.drop count := Cursor.remaining_iterate forest.cursor count
  refine ⟨fun count => ?handed, fun count => ?ended, ?roots, Node.preorder_eq,
    fun count => ⟨?rest, Cursor.toList_eq _, ?pending⟩⟩
  case handed => rw [← Cursor.head?_remaining, hremaining, List.head?_drop]
  case ended => rw [Cursor.next?_eq_none_iff, hremaining, List.drop_eq_nil_iff, nodeCount]
  case roots => simp only [nodes, ← Node.preorder_eq]
  case rest => rw [Cursor.toList_eq, ← hremaining, Cursor.remaining]
  case pending => rw [Cursor.pending_eq_length, hremaining, List.length_drop, nodeCount]

end Forest

end TreePass
