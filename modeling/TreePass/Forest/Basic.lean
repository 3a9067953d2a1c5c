import TreePass.Node.Equality

/-!
# Forests

A forest is an ordered list of roots, several of which may have the same name.
Making a forest places every node: a root at its name, and everything below it
at the keys that lead there. Looking up a name finds the first root with it.
-/

namespace TreePass

/-- An ordered list of root nodes. -/
structure Forest where
  roots : List Node
deriving Inhabited

namespace Forest

/-- The forest without roots. -/
def empty : Forest := ⟨[]⟩

/-- The forest of the given roots, each placed at its name. -/
def ofRoots (roots : List Node) : Forest :=
  ⟨roots.map Node.asRoot⟩

def isEmpty (forest : Forest) : Bool := forest.roots.isEmpty

/-- The first root of a name. -/
def root? (forest : Forest) (name : String) : Option Node :=
  forest.roots.find? fun root => root.name == name

/-- Puts a root in the place of the first one of the same name, or at the end. -/
def replaceRoot (root : Node) : List Node → List Node
  | [] => [root]
  | other :: rest =>
      if other.name = root.name then root :: rest else other :: replaceRoot root rest

/-- The forest with a root added, in place of the first one of its name. -/
def withRoot (forest : Forest) (root : Node) : Forest :=
  ⟨replaceRoot root.asRoot forest.roots⟩

/-- The forest without the roots of a name. -/
def withoutRoot (forest : Forest) (name : String) : Forest :=
  ⟨forest.roots.filter fun root => root.name != name⟩

def find? (forest : Forest) (path : Path) : Option Node :=
  (forest.root? path.root).bind fun root => root.descend path.rest

def contains (forest : Forest) (path : Path) : Bool :=
  (forest.find? path).isSome

def parentOf (forest : Forest) (node : Node) : Option Node :=
  node.parentPath.bind forest.find?

/-- The nodes on the way to a path, root first and its node last. -/
def ancestry (forest : Forest) (path : Path) : Option (List Node) :=
  (forest.root? path.root).bind fun root => root.descent path.rest

/-- All nodes in pre-order, one root after the other. -/
def nodes (forest : Forest) : List Node :=
  forest.roots.flatMap Node.preorder

def nodeCount (forest : Forest) : Nat := forest.nodes.length

/-- Whether two lists of roots are the same, one by one. -/
def sameRoots : List Node → List Node → Bool
  | [], [] => true
  | root :: rest, root' :: rest' => root.same root' && sameRoots rest rest'
  | _, _ => false

/-- Whether two forests are the same: the same roots in the same order. -/
def same (forest other : Forest) : Bool :=
  sameRoots forest.roots other.roots

instance : BEq Forest := ⟨same⟩

def fingerprint (forest : Forest) : List Datum :=
  .count forest.roots.length :: forest.roots.flatMap Node.fingerprint

end Forest

end TreePass
