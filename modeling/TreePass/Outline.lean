import TreePass.Forest.Basic
import TreePass.Text.Lines

/-!
# Outlines

The outline of a forest is an indented listing. Every node and member has a
line of its own, after the lines of its documentation; members stand before
children, both one step further in than their node.
-/

namespace TreePass

namespace Outline

def indent : String := "  "

def line (depth : Nat) (content : String) : String :=
  String.join (List.replicate depth indent) ++ content ++ "\n"

/-- The lines of a documentation, each marked as such. -/
def documentation (depth : Nat) (text : Option String) : String :=
  match text with
  | none => ""
  | some text => String.join ((Text.lines text).map fun content => line depth ("/// " ++ content))

/-- The attributes of a line, after a space, if there are any. -/
def attributes (set : AttributeSet) : String :=
  if set.isEmpty then "" else " " ++ set.display

/-- The type of a member, after a colon, if it has one. -/
def typeName (name : Option String) : String :=
  match name with
  | none => ""
  | some name => ": " ++ name

end Outline

def Member.outlineAt (depth : Nat) (member : Member) : String :=
  Outline.documentation depth member.documentation ++
    Outline.line depth ("member " ++ member.name ++ Outline.typeName member.typeName ++
      Outline.attributes member.attributes)

mutual

/-- The lines of a node at a depth, followed by those of what it holds. -/
def Node.outlineAt (depth : Nat) : Node → String
  | ⟨name, documentation, attributes, members, children, _⟩ =>
      Outline.documentation depth documentation ++
        Outline.line depth ("node " ++ name ++ Outline.attributes attributes) ++
        String.join (members.map fun entry => entry.2.outlineAt (depth + 1)) ++
        Node.outlineChildren (depth + 1) children

def Node.outlineChildren (depth : Nat) : List (String × Node) → String
  | [] => ""
  | (_, child) :: rest => child.outlineAt depth ++ Node.outlineChildren depth rest

end

def Member.outline (member : Member) : String := member.outlineAt 0

def Node.outline (node : Node) : String := node.outlineAt 0

/-- The outlines of all roots, one after the other. -/
def Forest.outline (forest : Forest) : String :=
  String.join (forest.roots.map Node.outline)

end TreePass
