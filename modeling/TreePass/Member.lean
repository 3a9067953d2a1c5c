import TreePass.Attribute.Set

/-!
# Members

A member is a named slot of a node, such as a field, a property or a method. It
may have a documentation and a type, and it carries attributes.
-/

namespace TreePass

/-- A named slot of a node. -/
structure Member where
  name : String
  documentation : Option String := none
  /-- The declared type; absent in targets without types. -/
  typeName : Option String := none
  attributes : AttributeSet := .empty
deriving DecidableEq, Inhabited

namespace Member

def named (name : String) : Member := { name }

def withAttribute (member : Member) (value : Attribute) : Member :=
  { member with attributes := member.attributes.including value }

end Member

end TreePass
