import TreePass.Forest.Basic

/-!
# Guards

A guard says where a rule applies. It is asked about a subject, which is the
whole forest, a node of it or a member of a node. A test of nodes also holds of
the members of the nodes that pass it, a test of the forest holds of everything
in it, and a test of members holds of nothing else. The connectives work
subject by subject.
-/

namespace TreePass

/-- What a guard is asked about. -/
inductive Subject where
  | tree
  | node (node : Node)
  | member (node : Node) (member : Member)

/-- A test of forests, nodes and members. -/
inductive Guard where
  | always
  | never
  | nodeNamed (name : String)
  | nodeAt (path : Path)
  /-- The node placed at a path and everything below it. -/
  | under (path : Path)
  | depth (depth : Nat)
  /-- Nodes that have an attribute of a key. -/
  | nodeTagged (key : String)
  /-- Nodes that have a member under a key. -/
  | hasMember (name : String)
  /-- Nodes without children. -/
  | leaf
  | memberNamed (name : String)
  | memberTyped (typeName : String)
  /-- Members that have an attribute of a key. -/
  | memberTagged (key : String)
  /-- Everything, while a path leads to a node of the forest. -/
  | treeContains (path : Path)
  | and (first second : Guard)
  | or (first second : Guard)
  | xor (first second : Guard)
  | not (guard : Guard)
  /-- All of the guards; the empty list holds of everything. -/
  | all (guards : List Guard)
  /-- One of the guards at least; the empty list holds of nothing. -/
  | any (guards : List Guard)
  | treeTest (test : Forest → Bool)
  | nodeTest (test : Forest → Node → Bool)
  | memberTest (test : Forest → Node → Member → Bool)

namespace Guard

instance : Inhabited Guard := ⟨never⟩

def root : Guard := .depth 0

/-- A test of nodes, which the members of a node share. -/
def onNode (test : Node → Bool) : Subject → Bool
  | .tree => false
  | .node node => test node
  | .member node _ => test node

def onMember (test : Node → Member → Bool) : Subject → Bool
  | .tree => false
  | .node _ => false
  | .member node member => test node member

mutual

def holds (forest : Forest) (subject : Subject) : Guard → Bool
  | .always => true
  | .never => false
  | .nodeNamed name => onNode (fun node => node.name == name) subject
  | .nodeAt path => onNode (fun node => node.path == path) subject
  | .under path => onNode (fun node => node.path.startsWith path) subject
  | .depth edges => onNode (fun node => node.depth == edges) subject
  | .nodeTagged key => onNode (fun node => node.attributes.containsKey key) subject
  | .hasMember name => onNode (fun node => node.hasMember name) subject
  | .leaf => onNode (fun node => node.children.isEmpty) subject
  | .memberNamed name => onMember (fun _ member => member.name == name) subject
  | .memberTyped typeName => onMember (fun _ member => member.typeName == some typeName) subject
  | .memberTagged key => onMember (fun _ member => member.attributes.containsKey key) subject
  | .treeContains path => forest.contains path
  | .and first second => first.holds forest subject && second.holds forest subject
  | .or first second => first.holds forest subject || second.holds forest subject
  | .xor first second => first.holds forest subject != second.holds forest subject
  | .not guard => !guard.holds forest subject
  | .all guards => allHold forest subject guards
  | .any guards => anyHolds forest subject guards
  | .treeTest test => test forest
  | .nodeTest test => onNode (test forest) subject
  | .memberTest test => onMember (test forest) subject

def allHold (forest : Forest) (subject : Subject) : List Guard → Bool
  | [] => true
  | guard :: rest => guard.holds forest subject && allHold forest subject rest

def anyHolds (forest : Forest) (subject : Subject) : List Guard → Bool
  | [] => false
  | guard :: rest => guard.holds forest subject || anyHolds forest subject rest

end

def matchesTree (guard : Guard) (forest : Forest) : Bool :=
  guard.holds forest .tree

def matchesNode (guard : Guard) (forest : Forest) (node : Node) : Bool :=
  guard.holds forest (.node node)

def matchesMember (guard : Guard) (forest : Forest) (node : Node) (member : Member) : Bool :=
  guard.holds forest (.member node member)

end Guard

end TreePass
