import TreePass.Codec.Encode
import TreePass.Json.Parser
import TreePass.Json.Record

/-!
# Reading the data model

Reading undoes writing, and it accepts more than what is written: fields in any
order, records as arrays, unknown fields, and defaults for most of what may be
left out. The arrays and objects that are part of the model may be nested up to
a limit, which every reader takes as the number of levels that it may still go
down. What is passed over does not count. Paths are not read: a node that is
read on its own stands at its name, and everything in it accordingly.
-/

namespace TreePass

/-- The number of levels that a text may be nested. -/
def nestingLimit : Nat := 127

def Attribute.ofJson : Nat → Json → Option Attribute
  | _ + 1, .object [(some "Flag", content)] => content.text?.map .flag
  | _ + 2, .object [(some "Text", content)] => do
      let [key, value] ← content.record? ["key", "value"] | none
      return .text (← key.required Json.text?) (← value.required Json.text?)
  | _ + 2, .object [(some "Int", content)] => do
      let [key, value] ← content.record? ["key", "value"] | none
      return .int (← key.required Json.text?) (← value.required Json.int64?)
  | _ + 2, .object [(some "Bool", content)] => do
      let [key, value] ← content.record? ["key", "value"] | none
      return .bool (← key.required Json.text?) (← value.required Json.bool?)
  | levels + 3, .object [(some "Structured", content)] => do
      let [kind, fields] ← content.record? ["kind", "fields"] | none
      let kind ← kind.required Json.text?
      let entries ← fields.required Json.entries?
      let fields ← entries.mapM fun (name, value) => do
        return (name, ← Attribute.ofJson levels value)
      return .record kind fields
  | _, _ => none

def AttributeSet.ofJson : Nat → Json → Option AttributeSet
  | levels + 1, .array items => (items.mapM (Attribute.ofJson levels)).map .ofList
  | _, _ => none

def Path.ofJson : Nat → Json → Option Path
  | _ + 1, .array items => do
      let names ← items.mapM Json.text?
      (Path.ofSegments names).toOption
  | _, _ => none

def Member.ofJson : Nat → Json → Option Member
  | 0, _ => none
  | levels + 1, json => do
      let [name, documentation, typeName, attributes] ←
        json.record? ["name", "documentation", "type_name", "attributes"] | none
      return {
        name := ← name.required Json.text?
        documentation := ← documentation.orAbsent none Json.nullableText?
        typeName := ← typeName.orAbsent none Json.nullableText?
        attributes := ← attributes.orDefault .empty (AttributeSet.ofJson levels) }

/-- Reads a map, in which the last value of a repeated key counts and stands in
the place of the first. -/
def Json.map? {α : Type} (read : Json → Option α) (json : Json) : Option (List (String × α)) := do
  let entries ← json.entries?
  let values ← entries.mapM fun (key, value) => do return (key, ← read value)
  return Keyed.ofList values

/-- Reads a node, which then stands at its name. Its children are read in the same way
before they are placed below it. -/
def Node.ofJson : Nat → Json → Option Node
  | 0, _ => none
  | levels + 1, json => do
      let [name, documentation, children, members, attributes] ←
        json.record? ["name", "documentation", "children", "members", "attributes"] | none
      let name ← name.required Json.text?
      let documentation ← documentation.orDefault none Json.nullableText?
      let children ← children.orDefault [] fun value =>
        match levels with
        | 0 => none
        | below + 1 => Json.map? (Node.ofJson below) value
      let members ← members.orDefault [] fun value =>
        match levels with
        | 0 => none
        | below + 1 => Json.map? (Member.ofJson below) value
      let attributes ← attributes.orDefault .empty (AttributeSet.ofJson levels)
      return Node.asRoot ⟨name, documentation, attributes, members, children, .single name⟩

def Forest.ofJson : Nat → Json → Option Forest
  | levels + 1, .array items => (items.mapM (Node.ofJson levels)).map .ofRoots
  | _, _ => none

def MissingChild.ofWord : String → Option MissingChild
  | "throw" => some .refuse
  | "create_empty_node" => some .fill
  | _ => none

/-- Reads a policy on gaps: its word, or an object with the word as the one
field and null in it. -/
def MissingChild.ofJson : Nat → Json → Option MissingChild
  | _, .text (some word) => ofWord word
  | _ + 1, .object [(some word, .null)] => ofWord word
  | _, _ => none

def Settings.ofJson : Nat → Json → Option Settings
  | 0, _ => none
  | levels + 1, json => do
      let [missingChild, rejectUnreachable, traceNodes] ←
        json.record? ["missing_child_behavior", "reject_unreachable_passes", "trace_nodes"] | none
      let standard : Settings := {}
      return {
        missingChild := ← missingChild.orDefault standard.missingChild (MissingChild.ofJson levels)
        rejectUnreachable := ← rejectUnreachable.orDefault standard.rejectUnreachable Json.bool?
        traceNodes := ← traceNodes.orDefault standard.traceNodes Json.bool? }

/-- Reads a text of one value. -/
def decodeText {α : Type} (read : Nat → Json → Option α) (text : String) : Option α :=
  (Json.parse text).bind (read nestingLimit)

end TreePass
