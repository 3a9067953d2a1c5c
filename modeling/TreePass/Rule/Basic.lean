import TreePass.Fault
import TreePass.Forest.Basic

/-!
# Rules

A rule rewrites a forest, a node or a member; where it has nothing to do it
returns what it was given. Nodes and members may also be removed, which is the
answer `none`. A rule may fail or have other effects, as the monad `m` allows;
in `Except Fault` it is a plain function. Most rules are one of a fixed stock,
a rule made of functions is open to everything else, and a composite runs its
rules one after the other, until one removes what they work on.
-/

namespace TreePass

/-- Whether a rule about attributes is for nodes or for members. -/
inductive Target where
  | node
  | member
deriving DecidableEq, Repr

/-- What a rule made of functions does. -/
structure Operations (m : Type → Type) where
  onTree : Forest → m Forest
  onNode : Forest → Node → m (Option Node)
  onMember : Forest → Node → Member → m (Option Member)

/-- The operations that return what they are given. -/
def Operations.keep {m : Type → Type} [Monad m] : Operations m where
  onTree := pure
  onNode _ node := pure (some node)
  onMember _ _ member := pure (some member)

/-- A way to rewrite forests, nodes and members. -/
inductive Rule (m : Type → Type) where
  /-- Adds a root, in place of the first one of its name. -/
  | addRoot (root : Node)
  | removeRoot (name : String)
  /-- Gives a node a member, in place of the one of its name. -/
  | addMember (member : Member)
  | removeMember (name : String)
  | renameMember (old new : String)
  | retypeMember (name : String) (typeName : Option String)
  | documentMember (name : String) (documentation : Option String)
  /-- Gives a node a child, in place of the one of its name. -/
  | addChild (child : Node)
  /-- Drops the child under a key. -/
  | removeChild (name : String)
  | removeNode
  | renameNode (name : String)
  | setDocumentation (documentation : Option String)
  | addAttribute (value : Attribute) (target : Target)
  /-- Drops the attributes of a key. -/
  | removeAttribute (key : String) (target : Target)
  | custom (name : String) (operations : Operations m)
  /-- Several rules, one after the other. -/
  | composite (name : String) (rules : List (Rule m))

namespace Rule

variable {m : Type → Type}

instance : Inhabited (Rule m) := ⟨removeNode⟩

def name : Rule m → String
  | .addRoot _ => "AddRoot"
  | .removeRoot _ => "RemoveRoot"
  | .addMember _ => "AddMember"
  | .removeMember _ => "RemoveMember"
  | .renameMember .. => "RenameMember"
  | .retypeMember .. => "RetypeMember"
  | .documentMember .. => "DocumentMember"
  | .addChild _ => "AddChild"
  | .removeChild _ => "RemoveChild"
  | .removeNode => "RemoveNode"
  | .renameNode _ => "RenameNode"
  | .setDocumentation _ => "SetDocumentation"
  | .addAttribute .. => "AddAttribute"
  | .removeAttribute .. => "RemoveAttribute"
  | .custom name _ => name
  | .composite name _ => name

variable [Monad m]

mutual

def onTree (forest : Forest) : Rule m → m Forest
  | .addRoot root => pure (forest.withRoot root)
  | .removeRoot name => pure (forest.withoutRoot name)
  | .custom _ operations => operations.onTree forest
  | .composite _ rules => onTreeAll forest rules
  | _ => pure forest

/-- What rules make of a forest, one after the other. -/
def onTreeAll (forest : Forest) : List (Rule m) → m Forest
  | [] => pure forest
  | rule :: rest => do
      let next ← rule.onTree forest
      onTreeAll next rest

end

mutual

def onNode (forest : Forest) (node : Node) : Rule m → m (Option Node)
  | .addMember member => pure (some (node.withMember member))
  | .addChild child => pure (some (node.withChild child))
  | .removeChild name => pure (some (node.withoutChild name))
  | .removeNode => pure none
  | .renameNode name => pure (some { node with name })
  | .setDocumentation documentation => pure (some { node with documentation })
  | .addAttribute value .node => pure (some (node.withAttribute value))
  | .removeAttribute key .node =>
      pure (some { node with attributes := (node.attributes.removeKey key).2 })
  | .custom _ operations => operations.onNode forest node
  | .composite _ rules => onNodeAll forest node rules
  | _ => pure (some node)

/-- What rules make of a node, one after the other, until one removes it. -/
def onNodeAll (forest : Forest) (node : Node) : List (Rule m) → m (Option Node)
  | [] => pure (some node)
  | rule :: rest => do
      match ← rule.onNode forest node with
      | none => pure none
      | some next => onNodeAll forest next rest

end

/-- What a rule for the members of a name makes of a member. -/
def onNamed (name : String) (member : Member) (f : Member → Option Member) : Option Member :=
  if member.name = name then f member else some member

mutual

def onMember (forest : Forest) (node : Node) (member : Member) : Rule m → m (Option Member)
  | .removeMember name => pure (onNamed name member fun _ => none)
  | .renameMember old new => pure (onNamed old member fun member => some { member with name := new })
  | .retypeMember name typeName =>
      pure (onNamed name member fun member => some { member with typeName })
  | .documentMember name documentation =>
      pure (onNamed name member fun member => some { member with documentation })
  | .addAttribute value .member => pure (some (member.withAttribute value))
  | .removeAttribute key .member =>
      pure (some { member with attributes := (member.attributes.removeKey key).2 })
  | .custom _ operations => operations.onMember forest node member
  | .composite _ rules => onMemberAll forest node member rules
  | _ => pure (some member)

/-- What rules make of a member, one after the other, until one removes it. -/
def onMemberAll (forest : Forest) (node : Node) (member : Member) :
    List (Rule m) → m (Option Member)
  | [] => pure (some member)
  | rule :: rest => do
      match ← rule.onMember forest node member with
      | none => pure none
      | some next => onMemberAll forest node next rest

end

end Rule

end TreePass
