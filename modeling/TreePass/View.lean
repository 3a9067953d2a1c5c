import TreePass.Codec.Encode
import TreePass.Plan

/-!
# Views

A view shows in JSON all that can be asked of a value. Other than in its
written form, a node shows where it stands, and an entry of a map shows its key
where that is not its name.
-/

namespace TreePass

/-- The key of an entry as a field of its own, where it is not the name. -/
def keyField (key name : String) : List (String × Json) :=
  if key = name then [] else [("key", .ofText key)]

def Member.viewFields (member : Member) : List (String × Json) :=
  [("name", .ofText member.name), ("doc", .ofOption member.documentation),
    ("type", .ofOption member.typeName), ("attrs", member.attributes.toJson)]

def Member.view (member : Member) : Json := .ofFields member.viewFields

mutual

def Node.viewFields : Node → List (String × Json)
  | ⟨name, documentation, attributes, members, children, path⟩ =>
      [("name", .ofText name), ("doc", .ofOption documentation),
        ("attrs", attributes.toJson), ("path", path.toJson),
        ("members", .array (members.map fun (key, member) =>
          .ofFields (member.viewFields ++ keyField key member.name))),
        ("children", .array (Node.viewChildren children))]

def Node.viewChildren : List (String × Node) → List Json
  | [] => []
  | (key, child) :: rest =>
      .ofFields (child.viewFields ++ keyField key child.name) :: Node.viewChildren rest

end

def Node.view (node : Node) : Json := .ofFields node.viewFields

def Forest.view (forest : Forest) : Json := .array (forest.roots.map Node.view)

/-- A value if there is one, and null otherwise. -/
def viewOption {α : Type} (view : α → Json) : Option α → Json
  | none => .null
  | some value => view value

def Entry.view (entry : Entry) : Json :=
  .ofFields
    [("name", .ofText entry.name), ("doc", .ofOption entry.documentation),
      ("attrs", entry.attributes.toJson), ("children", .ofTexts entry.children),
      ("members", .array (entry.members.map Member.view))]

/-- A tally, with the answer to whether anything changed. -/
def Tally.view (tally : Tally) : Json :=
  .ofFields
    [("tree_rewrites", .ofNat tally.treeRewrites), ("nodes_visited", .ofNat tally.nodesVisited),
      ("nodes_removed", .ofNat tally.nodesRemoved), ("nodes_renamed", .ofNat tally.nodesRenamed),
      ("children_added", .ofNat tally.childrenAdded),
      ("children_removed", .ofNat tally.childrenRemoved),
      ("members_added", .ofNat tally.membersAdded),
      ("members_rewritten", .ofNat tally.membersRewritten),
      ("members_removed", .ofNat tally.membersRemoved), ("changed", .bool tally.changed)]

variable {m : Type → Type}

def PassDraft.view (draft : PassDraft m) : Json :=
  .ofFields
    [("name", .ofText draft.name), ("doc", .ofOption draft.documentation),
      ("previous", .ofOption draft.previous), ("next", .ofOption draft.next),
      ("rules", .ofTexts (draft.steps.map Step.name))]

def Pass.view (pass : Pass m) : Json :=
  .ofFields
    [("name", .ofText pass.name), ("doc", .ofOption pass.documentation),
      ("previous", .ofOption pass.previous), ("next", .ofOption pass.next),
      ("rules", .ofTexts (pass.steps.map Step.name)), ("sentinel", .bool pass.isSentinel)]

def Path.view (path : Path) : Json :=
  .ofFields
    [("text", .ofText path.text), ("segments", path.toJson), ("leaf", .ofText path.leaf),
      ("root", .ofText path.root), ("depth", .ofNat path.depth), ("len", .ofNat path.length),
      ("is_root", .bool path.isRoot), ("is_empty", .bool path.segments.isEmpty)]

def AttributeSet.view (set : AttributeSet) : Json :=
  .ofFields
    [("values", set.toJson), ("len", .ofNat set.size), ("is_empty", .bool set.isEmpty),
      ("display", .ofText set.display), ("keys", .ofTexts (set.values.map Attribute.key))]

end TreePass
