/-!
# Tallies

A tally counts what a rewrite did: how many forests, nodes and members it met,
changed, added and dropped.
-/

namespace TreePass

/-- What a rewrite did, in numbers. -/
structure Tally where
  /-- Steps that changed the forest as a whole. -/
  treeRewrites : Nat := 0
  nodesVisited : Nat := 0
  nodesRemoved : Nat := 0
  nodesRenamed : Nat := 0
  childrenAdded : Nat := 0
  childrenRemoved : Nat := 0
  membersAdded : Nat := 0
  membersRewritten : Nat := 0
  membersRemoved : Nat := 0
deriving DecidableEq, Repr

namespace Tally

/-- The tally of nothing. -/
def zero : Tally := {}

def merge (a b : Tally) : Tally where
  treeRewrites := a.treeRewrites + b.treeRewrites
  nodesVisited := a.nodesVisited + b.nodesVisited
  nodesRemoved := a.nodesRemoved + b.nodesRemoved
  nodesRenamed := a.nodesRenamed + b.nodesRenamed
  childrenAdded := a.childrenAdded + b.childrenAdded
  childrenRemoved := a.childrenRemoved + b.childrenRemoved
  membersAdded := a.membersAdded + b.membersAdded
  membersRewritten := a.membersRewritten + b.membersRewritten
  membersRemoved := a.membersRemoved + b.membersRemoved

def changed (tally : Tally) : Bool :=
  tally.treeRewrites > 0 || tally.nodesRemoved > 0 || tally.nodesRenamed > 0 ||
    tally.childrenAdded > 0 || tally.childrenRemoved > 0 || tally.membersAdded > 0 ||
    tally.membersRewritten > 0 || tally.membersRemoved > 0

end Tally

end TreePass
