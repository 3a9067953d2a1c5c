import TreePass.Step
import TreePass.Tally

/-!
# Rewriting a forest

A rewrite applies a list of steps to a forest in one go. First the steps work
on the forest as a whole, one after the other. Then every node is visited
before its children: the steps work on the node, then on each of its members,
and what is left is staged under the new path. In the end the staged nodes are
built. Guards are asked about the node or the member as it was before the first
step, in the forest that the first phase left; rules get what the step before
left.

A rule may give every node a new child and so keep the visit from ending. The
visit therefore carries the number of levels that it may still go down, and
stops with a fault of its own when there are none.
-/

namespace TreePass

/-- How steps are applied. -/
structure Rewriter where
  missingChild : MissingChild := .refuse
  /-- The number of levels that the visit may go down. -/
  levels : Nat := 1048576

/-- What a rewrite made, and what it did. -/
structure Outcome where
  forest : Forest
  tally : Tally

/-- The state of a visit: the nodes that are staged, and what was counted. -/
structure Progress where
  staging : Staging := .empty
  tally : Tally := .zero

namespace Rewriter

variable {m : Type → Type} [Monad m]

/-- Applies the steps to the forest as a whole; counts those that changed it. -/
def foldTree (tally : Tally) (forest : Forest) : List (Step m) → m (Forest × Tally)
  | [] => pure (forest, tally)
  | step :: rest => do
      if step.admits forest .tree then
        let next ← step.rule.onTree forest
        let tally :=
          if next.same forest then tally
          else { tally with treeRewrites := tally.treeRewrites + 1 }
        foldTree tally next rest
      else foldTree tally forest rest

/-- Applies the steps to a node, where `entered` is the node that guards are
asked about. A removal ends it. -/
def foldNode (forest : Forest) (entered current : Node) : List (Step m) → m (Option Node)
  | [] => pure (some current)
  | step :: rest => do
      if step.admits forest (.node entered) then
        match ← step.rule.onNode forest current with
        | none => pure none
        | some next => foldNode forest entered next rest
      else foldNode forest entered current rest

/-- Applies the steps to a member. Guards are asked about the member as it
`entered` and the node as it was before its own steps, while rules see the node
that those left. A removal ends it. -/
def foldMember (forest : Forest) (before node : Node) (entered current : Member) :
    List (Step m) → m (Option Member)
  | [] => pure (some current)
  | step :: rest => do
      if step.admits forest (.member before entered) then
        match ← step.rule.onMember forest node current with
        | none => pure none
        | some next => foldMember forest before node entered next rest
      else foldMember forest before node entered current rest

/-- Applies the steps to each member on its own; counts those that were removed
or changed. -/
def foldMembers (steps : List (Step m)) (forest : Forest) (before node : Node) (tally : Tally) :
    List Member → m (List Member × Tally)
  | [] => pure ([], tally)
  | member :: rest => do
      match ← foldMember forest before node member member steps with
      | none =>
          foldMembers steps forest before node
            { tally with membersRemoved := tally.membersRemoved + 1 } rest
      | some left =>
          let tally :=
            if left = member then tally
            else { tally with membersRewritten := tally.membersRewritten + 1 }
          let (others, tally) ← foldMembers steps forest before node tally rest
          pure (left :: others, tally)

/-- The number of keys of the first list that are not in the second. -/
def countMissing (keys others : List String) : Nat :=
  (keys.filter fun key => !others.contains key).length

/-- Counts the name, and the keys of children and members, that steps on a node
changed. -/
def countChanges (before after : Node) (tally : Tally) : Tally :=
  { tally with
    nodesRenamed := tally.nodesRenamed + (if after.name = before.name then 0 else 1)
    childrenRemoved := tally.childrenRemoved + countMissing before.childNames after.childNames
    childrenAdded := tally.childrenAdded + countMissing after.childNames before.childNames
    membersRemoved := tally.membersRemoved + countMissing before.memberNames after.memberNames
    membersAdded := tally.membersAdded + countMissing after.memberNames before.memberNames }

/-- The path of a node of a name below a parent, or as a root. -/
def placeUnder (parent : Option Path) (name : String) : Path :=
  match parent with
  | none => .single name
  | some parent => parent.child name

/-- Stages a node without its children, below its parent or as a root. -/
def stage (staging : Staging) (parent : Option Path) (node : Node) (members : List Member) :
    Except BuildFault Staging :=
  let fill (staging : Staging) : Staging :=
    (staging.edit (placeUnder parent node.name) fun content =>
      { documentation := node.documentation
        attributes := node.attributes
        members := content.members ++ members }).2
  match parent with
  | none => .ok (fill (staging.addRoot node.name))
  | some parent =>
      match staging.addChild parent node.name with
      | (true, staging) => .ok (fill staging)
      | (false, _) => .error (.nodeNotFound parent)

variable [MonadExceptOf Fault m]

/-- Goes on with a value, or raises the fault that stands in its place. -/
def orRaise {ε α : Type} (raise : ε → Fault) : Except ε α → m α
  | .ok value => pure value
  | .error fault => throw (raise fault)

/-- Visits a node and, if it is kept, everything that is then below it, with
the number of levels that the visit may still go down. -/
def visit (steps : List (Step m)) (forest : Forest) :
    Nat → Option Path → Progress → Node → m Progress
  | 0, _, _, _ => throw Fault.tooDeep
  | levels + 1, parent, progress, node => do
      let tally := { progress.tally with nodesVisited := progress.tally.nodesVisited + 1 }
      match ← foldNode forest node node steps with
      | none => pure { progress with
          tally := { tally with nodesRemoved := tally.nodesRemoved + 1 } }
      | some kept =>
          let path := placeUnder parent kept.name
          if progress.staging.contains path then
            throw (Fault.build (.duplicateNode path))
          let (members, tally) ←
            foldMembers steps forest node kept (countChanges node kept tally)
              (Keyed.values kept.members)
          let staging ← orRaise Fault.build (stage progress.staging parent kept members)
          (Keyed.values kept.children).foldlM (visit steps forest levels (some path))
            { staging, tally }

/-- Applies steps to a forest. Without steps the forest stays as it is. -/
def apply (rewriter : Rewriter) (steps : List (Step m)) (forest : Forest) : m Outcome :=
  if steps.isEmpty then pure { forest, tally := .zero }
  else do
    let (tree, tally) ← foldTree .zero forest steps
    let progress ← tree.roots.foldlM (visit steps tree rewriter.levels none) { tally }
    let forest ← orRaise Fault.build (progress.staging.build rewriter.missingChild)
    pure { forest, tally := progress.tally }

end Rewriter

end TreePass
