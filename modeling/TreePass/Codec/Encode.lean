import TreePass.Forest.Basic
import TreePass.Json.Printer
import TreePass.Settings

/-!
# The written form of the data model

Each part of the model has a written form in JSON. Maps and fields keep their
order, and the paths of nodes are not written, since they follow from the rest.
-/

namespace TreePass

mutual

def Attribute.toJson : Attribute → Json
  | .flag name => .ofFields [("Flag", .ofText name)]
  | .text key value => .ofFields [("Text", .ofFields [("key", .ofText key), ("value", .ofText value)])]
  | .int key value =>
      .ofFields [("Int", .ofFields [("key", .ofText key), ("value", .integer value.toInt)])]
  | .bool key value =>
      .ofFields [("Bool", .ofFields [("key", .ofText key), ("value", .bool value)])]
  | .structured kind fields =>
      .ofFields [("Structured",
        .ofFields [("kind", .ofText kind), ("fields", .ofFields (Attribute.toJsonFields fields))])]

/-- The fields of a record, each under its name. -/
def Attribute.toJsonFields : List (String × Attribute) → List (String × Json)
  | [] => []
  | (name, value) :: rest => (name, value.toJson) :: Attribute.toJsonFields rest

end

def AttributeSet.toJson (set : AttributeSet) : Json :=
  .array (set.values.map Attribute.toJson)

def Path.toJson (path : Path) : Json :=
  .ofTexts path.segments

def Member.toJson (member : Member) : Json :=
  .ofFields
    [("name", .ofText member.name), ("documentation", .ofOption member.documentation),
      ("type_name", .ofOption member.typeName), ("attributes", member.attributes.toJson)]

mutual

/-- A node is an object of its fields, where both maps are objects. -/
def Node.toJson : Node → Json
  | ⟨name, documentation, attributes, members, children, _⟩ =>
      .ofFields
        [("name", .ofText name), ("documentation", .ofOption documentation),
          ("children", .ofFields (Node.toJsonChildren children)),
          ("members", .ofFields (members.map fun entry => (entry.1, entry.2.toJson))),
          ("attributes", attributes.toJson)]

/-- The children of a node, each under its key. -/
def Node.toJsonChildren : List (String × Node) → List (String × Json)
  | [] => []
  | (key, child) :: rest => (key, child.toJson) :: Node.toJsonChildren rest

end

def Forest.toJson (forest : Forest) : Json :=
  .array (forest.roots.map Node.toJson)

def MissingChild.word : MissingChild → String
  | .refuse => "throw"
  | .fill => "create_empty_node"

def MissingChild.toJson (policy : MissingChild) : Json :=
  .ofText policy.word

def Settings.toJson (settings : Settings) : Json :=
  .ofFields
    [("missing_child_behavior", settings.missingChild.toJson),
      ("reject_unreachable_passes", .bool settings.rejectUnreachable),
      ("trace_nodes", .bool settings.traceNodes)]

end TreePass
