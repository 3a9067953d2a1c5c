import TreePass.Keyed
import TreePass.Member
import TreePass.Path

/-!
# Nodes

A node holds its children and its members as maps in insertion order. The key
of an entry is the name under which it was inserted, which need not be the
name that the child or member has now. A node also records the path at which it
was placed: `reroot` places a node and everything below it, where the paths
below are made of the keys.
-/

namespace TreePass

/-- A node with its children and members. -/
structure Node where
  name : String
  documentation : Option String
  attributes : AttributeSet
  /-- The members by key. -/
  members : List (String × Member)
  /-- The children by key. -/
  children : List (String × Node)
  /-- Where the node was last placed. -/
  path : Path

namespace Node

/-- A node with nothing in it, placed at `path`. -/
def placed (name : String) (path : Path) : Node :=
  ⟨name, none, .empty, [], [], path⟩

/-- A detached node with nothing in it; it stands at its own name. -/
def named (name : String) : Node :=
  placed name (.single name)

instance : Inhabited Node := ⟨named ""⟩

mutual

/-- Places a node at `path` and everything below it accordingly. -/
def reroot (path : Path) : Node → Node
  | ⟨name, documentation, attributes, members, children, _⟩ =>
      ⟨name, documentation, attributes, members, rerootChildren path children, path⟩

/-- Places children below `path`, each at its key. -/
def rerootChildren (path : Path) : List (String × Node) → List (String × Node)
  | [] => []
  | (key, child) :: rest =>
      (key, child.reroot (path.child key)) :: rerootChildren path rest

end

/-- The node at its own name, as a root stands. -/
def asRoot (node : Node) : Node :=
  node.reroot (.single node.name)

/-- The path of the parent; there is none at a root. -/
def parentPath (node : Node) : Option Path :=
  node.path.parent.toOption

def depth (node : Node) : Nat := node.path.depth

/-- The child under a key. -/
def child? (node : Node) (key : String) : Option Node :=
  Keyed.get? key node.children

/-- The member under a key. -/
def member? (node : Node) (key : String) : Option Member :=
  Keyed.get? key node.members

/-- Whether there is a child under a key. -/
def hasChild (node : Node) (key : String) : Bool :=
  Keyed.contains key node.children

/-- Whether there is a member under a key. -/
def hasMember (node : Node) (key : String) : Bool :=
  Keyed.contains key node.members

/-- The keys of the children, in order. -/
def childNames (node : Node) : List String := Keyed.keys node.children

/-- The keys of the members, in order. -/
def memberNames (node : Node) : List String := Keyed.keys node.members

/-- Whether the node has neither children nor members nor attributes. -/
def isBare (node : Node) : Bool :=
  node.children.isEmpty && node.members.isEmpty && node.attributes.isEmpty

def withAttribute (node : Node) (value : Attribute) : Node :=
  { node with attributes := node.attributes.including value }

/-- Stores a member under a key of its own. -/
def withMemberAt (node : Node) (key : String) (member : Member) : Node :=
  { node with members := Keyed.put key member node.members }

def withMember (node : Node) (member : Member) : Node :=
  node.withMemberAt member.name member

/-- The node without the member under a key. -/
def withoutMember (node : Node) (key : String) : Node :=
  { node with members := Keyed.erase key node.members }

/-- Stores a child under a key of its own, without placing it. -/
def withChildAt (node : Node) (key : String) (child : Node) : Node :=
  { node with children := Keyed.put key child node.children }

/-- Places a child below the node and stores it under its name. -/
def withChild (node child : Node) : Node :=
  node.withChildAt child.name (child.reroot (node.path.child child.name))

/-- The node without the child under a key. -/
def withoutChild (node : Node) (key : String) : Node :=
  { node with children := Keyed.erase key node.children }

/-- The node reached through children under the given keys. -/
def descend (node : Node) : List String → Option Node
  | [] => some node
  | key :: rest => (node.child? key).bind fun child => child.descend rest

/-- The nodes passed on the way through the given keys, the node itself first;
there are none when the way ends early. -/
def descent (node : Node) : List String → Option (List Node)
  | [] => some [node]
  | key :: rest =>
      (node.child? key).bind fun child => (child.descent rest).map (node :: ·)

mutual

/-- A node and everything below it, each before its children. -/
def preorder : Node → List Node
  | ⟨name, documentation, attributes, members, children, path⟩ =>
      ⟨name, documentation, attributes, members, children, path⟩ :: preorderAll children

/-- Everything in a list of children, one child after the other. -/
def preorderAll : List (String × Node) → List Node
  | [] => []
  | (_, child) :: rest => child.preorder ++ preorderAll rest

end

mutual

/-- The number of nodes in a node, itself included. -/
def size : Node → Nat
  | ⟨_, _, _, _, children, _⟩ => sizeAll children + 1

def sizeAll : List (String × Node) → Nat
  | [] => 0
  | (_, child) :: rest => child.size + sizeAll rest

end

end Node

end TreePass
