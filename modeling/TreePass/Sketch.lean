import TreePass.Forest.Basic
import TreePass.Json.Access

/-!
# Sketches

A sketch is a short description of a node in JSON: its name and, as far as it
has any, its documentation, attributes, members and children. The node is made
step by step, as by hand: members and children are added one after the other,
each replacing the one before it of the same name. An entry with a `key` of its
own is stored under that key instead, and a child is then not placed.
-/

namespace TreePass

/-- Reads an attribute whose records are nested to a bounded depth: an object
with one name, the kind of the attribute, under which its parts stand by name. -/
def Attribute.ofSketchWithin : Nat → Json → Option Attribute
  | 0, _ => none
  | bound + 1, json => do
      let (kind, content) ← json.single?
      match kind with
      | "Flag" => return .flag (← content.text?)
      | "Text" => return .text (← content.textField? "key") (← content.textField? "value")
      | "Int" =>
          return .int (← content.textField? "key") (← (← content.field? "value").int64?)
      | "Bool" =>
          return .bool (← content.textField? "key") (← (← content.field? "value").bool?)
      | "Structured" =>
          let name ← content.textField? "kind"
          let entries ← (← content.field? "fields").entries?
          let fields ← entries.mapM fun (key, value) => do
            return (key, ← Attribute.ofSketchWithin bound value)
          return .record name fields
      | _ => none

def Attribute.ofSketch (json : Json) : Option Attribute :=
  Attribute.ofSketchWithin json.depth json

def AttributeSet.ofSketch (items : List Json) : Option AttributeSet :=
  (items.mapM Attribute.ofSketch).map .ofList

def Member.ofSketch (json : Json) : Option Member := do
  return {
    name := ← json.textField? "name"
    documentation := ← json.optionalText? "doc"
    typeName := ← json.optionalText? "type"
    attributes := ← AttributeSet.ofSketch (← json.itemsField? "attrs") }

/-- Adds the member of a sketch to a node, under its key if it has one. -/
def Node.addMemberSketch (node : Node) (json : Json) : Option Node := do
  let member ← Member.ofSketch json
  match ← json.optionalText? "key" with
  | none => return node.withMember member
  | some key => return node.withMemberAt key member

/-- Reads a node whose children are nested to a bounded depth. -/
def Node.ofSketchWithin : Nat → Json → Option Node
  | 0, _ => none
  | bound + 1, json => do
      let node := Node.named (← json.textField? "name")
      let node := { node with
        documentation := ← json.optionalText? "doc"
        attributes := ← AttributeSet.ofSketch (← json.itemsField? "attrs") }
      let node ← (← json.itemsField? "members").foldlM Node.addMemberSketch node
      (← json.itemsField? "children").foldlM (fun node value => do
        let child ← Node.ofSketchWithin bound value
        match ← value.optionalText? "key" with
        | none => return node.withChild child
        | some key => return node.withChildAt key child) node

def Node.ofSketch (json : Json) : Option Node :=
  Node.ofSketchWithin json.depth json

def Forest.ofSketch (json : Json) : Option Forest := do
  return .ofRoots (← (← json.items?).mapM Node.ofSketch)

end TreePass
