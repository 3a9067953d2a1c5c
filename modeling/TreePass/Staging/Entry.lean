import TreePass.Node.Basic

/-!
# Staged nodes

An entry is the editable copy of one node. It holds the node's own data and
only the names of its children, whose entries are staged elsewhere. Users edit
the contents freely; the name and the child list change only together with the
registry that the entry belongs to.
-/

namespace TreePass

/-- The part of a staged node that is open to edits. -/
structure Content where
  documentation : Option String := none
  attributes : AttributeSet := .empty
  /-- The members in the order in which they were staged; names may repeat. -/
  members : List Member := []
deriving DecidableEq

namespace Content

/-- The first member of a name. -/
def member? (content : Content) (name : String) : Option Member :=
  content.members.find? fun member => member.name == name

/-- Stages a member at the end. -/
def addMember (content : Content) (member : Member) : Content :=
  { content with members := content.members ++ [member] }

/-- The list with the first member of a name replaced by another one. -/
def replaceFirst (name : String) (member : Member) : List Member → List Member
  | [] => []
  | other :: rest =>
      if other.name = name then member :: rest else other :: replaceFirst name member rest

/-- Replaces the first member of a name by another one. -/
def updateMember (content : Content) (name : String) (member : Member) : Content :=
  { content with members := replaceFirst name member content.members }

/-- Drops the first member of a name and answers which one it was. -/
def removeMember (content : Content) (name : String) : Option Member × Content :=
  (content.member? name,
    { content with members := content.members.eraseP fun member => member.name == name })

end Content

/-- A staged node. -/
structure Entry extends Content where
  name : String
  /-- The names of the children, in order. -/
  children : List String := []
deriving DecidableEq

namespace Entry

/-- A staged node with nothing in it. -/
def named (name : String) : Entry := { name }

/-- The staged copy of a node: its own data, its members and the keys of its
children. -/
def ofNode (node : Node) : Entry where
  name := node.name
  documentation := node.documentation
  attributes := node.attributes
  members := Keyed.values node.members
  children := node.childNames

def withContent (entry : Entry) (content : Content) : Entry :=
  { entry with toContent := content }

def hasChild (entry : Entry) (name : String) : Bool :=
  entry.children.contains name

/-- Lists a child at the end unless it is listed, and answers whether it was
not. -/
def listChild (entry : Entry) (name : String) : Bool × Entry :=
  if entry.hasChild name then (false, entry)
  else (true, { entry with children := entry.children ++ [name] })

/-- Strikes a child from the list and answers whether it was there. -/
def unlistChild (entry : Entry) (name : String) : Bool × Entry :=
  (entry.hasChild name,
    { entry with children := entry.children.filter fun child => child != name })

/-- Replaces the first occurrence of a name in a list. -/
def renameFirst (old new : String) : List String → List String
  | [] => []
  | name :: rest => if name = old then new :: rest else name :: renameFirst old new rest

/-- Lists a child under a new name, in the same place. -/
def renameChild (entry : Entry) (old new : String) : Entry :=
  { entry with children := renameFirst old new entry.children }

end Entry

end TreePass
