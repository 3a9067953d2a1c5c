import TreePass.Guard.Basic

/-!
# Ready-made tests

Guards that are made of functions: by size, by the parent of a node, and by
what a member says of itself.
-/

namespace TreePass.Guard

/-- Everything, while the forest has a number of nodes at least. -/
def treeSizeAtLeast (count : Nat) : Guard :=
  .treeTest fun forest => count ≤ forest.nodeCount

/-- Nodes with a number of members at least. -/
def memberCountAtLeast (count : Nat) : Guard :=
  .nodeTest fun _ node => count ≤ node.members.length

def parentNamed (name : String) : Guard :=
  .nodeTest fun forest node => (forest.parentOf node).any fun parent => parent.name == name

def namesake : Guard :=
  .memberTest fun _ node member => node.name == member.name

def documented : Guard :=
  .memberTest fun _ _ member => member.documentation.isSome

end TreePass.Guard
