import TreePass.Forest.Basic
import TreePass.Staging.Entry

/-!
# Staging a forest

A staging area holds the root names of a forest to be and a registry of
entries by path. Edits touch these two alone and are not checked: a child may
be listed without an entry, and an entry may lie where nobody lists it. An
edit answers what it did before the staging area that results.
-/

namespace TreePass

/-- The root names and the registry of a forest in the making. -/
structure Staging where
  roots : List String := []
  /-- The staged nodes by path, in the order in which they were registered. -/
  entries : List (Path × Entry) := []

namespace Staging

/-- The staging area with nothing in it. -/
def empty : Staging := {}

def contains (staging : Staging) (path : Path) : Bool :=
  Keyed.contains path staging.entries

def entry? (staging : Staging) (path : Path) : Option Entry :=
  Keyed.get? path staging.entries

def size (staging : Staging) : Nat := staging.entries.length

def isEmpty (staging : Staging) : Bool := staging.entries.isEmpty

mutual

/-- Registers a node and everything below it from `path` on, children first;
paths below are made of the keys of the children. -/
def registerNode (path : Path) : Node → List (Path × Entry) → List (Path × Entry)
  | ⟨name, documentation, attributes, members, children, recorded⟩, entries =>
      Keyed.put path
        (Entry.ofNode ⟨name, documentation, attributes, members, children, recorded⟩)
        (registerChildren path children entries)

/-- Registers children below `path`, one after the other. -/
def registerChildren (path : Path) :
    List (String × Node) → List (Path × Entry) → List (Path × Entry)
  | [], entries => entries
  | (key, child) :: rest, entries =>
      registerChildren path rest (registerNode (path.child key) child entries)

end

/-- The list with a name at its end, unless the name is in it. -/
def declare (name : String) (names : List String) : List String :=
  if names.contains name then names else names ++ [name]

def stageRoot (staging : Staging) (root : Node) : Staging where
  roots := declare root.name staging.roots
  entries := registerNode (.single root.name) root staging.entries

def ofForest (forest : Forest) : Staging :=
  forest.roots.foldl stageRoot empty

/-- Drops every entry at or below a path and answers how many there were. -/
def prune (staging : Staging) (path : Path) : Nat × Staging :=
  let kept := staging.entries.filter fun entry => !entry.1.startsWith path
  (staging.entries.length - kept.length, { staging with entries := kept })

/-- Stages a node with everything below it at a path, in place of what was
staged there. Nobody's child list changes. -/
def stageNode (staging : Staging) (path : Path) (node : Node) : Staging :=
  let pruned := (staging.prune path).2
  { pruned with entries := registerNode path node pruned.entries }

/-- Registers an empty node at a path unless one is staged there. -/
def ensureEntry (staging : Staging) (path : Path) (name : String) : Staging :=
  if staging.contains path then staging
  else { staging with entries := Keyed.put path (Entry.named name) staging.entries }

/-- Changes the entry at a path, if there is one. -/
def updateEntry (staging : Staging) (path : Path) (f : Entry → Entry) : Staging :=
  { staging with entries := Keyed.update path f staging.entries }

/-- Edits the contents of the node staged at a path and answers whether there
is one. -/
def edit (staging : Staging) (path : Path) (f : Content → Content) : Bool × Staging :=
  (staging.contains path,
    staging.updateEntry path fun entry => entry.withContent (f entry.toContent))

/-- Declares a root and makes sure that a node is staged for it. -/
def addRoot (staging : Staging) (name : String) : Staging :=
  let declared := { staging with roots := declare name staging.roots }
  declared.ensureEntry (.single name) name

/-- Lists a child without staging a node for it, and answers whether the list
grew. Under an unregistered parent nothing happens. -/
def declareChild (staging : Staging) (parent : Path) (name : String) : Bool × Staging :=
  match staging.entry? parent with
  | none => (false, staging)
  | some entry =>
      let (grew, listed) := entry.listChild name
      (grew, staging.updateEntry parent fun _ => listed)

/-- Lists a child and makes sure that a node is staged for it. Answers whether
the parent is registered; otherwise nothing happens. -/
def addChild (staging : Staging) (parent : Path) (name : String) : Bool × Staging :=
  if staging.contains parent then
    (true, (staging.declareChild parent name).2.ensureEntry (parent.child name) name)
  else (false, staging)

/-- Strikes a child from its parent's list and drops everything staged at or
below it. Answers whether there was anything to do. -/
def removeChild (staging : Staging) (parent : Path) (name : String) : Bool × Staging :=
  let listed := (staging.entry? parent).any fun entry => entry.hasChild name
  let unlisted := staging.updateEntry parent fun entry => (entry.unlistChild name).2
  let (dropped, pruned) := unlisted.prune (parent.child name)
  (listed || dropped > 0, pruned)

/-- Removes the node at a path, be it a root or a child, and answers whether
there was anything to do. -/
def removeNode (staging : Staging) (path : Path) : Bool × Staging :=
  match path.parent with
  | .ok parent => staging.removeChild parent path.leaf
  | .error _ =>
      let roots := staging.roots.filter fun root => root != path.leaf
      let (dropped, pruned) := staging.prune path
      (roots.length != staging.roots.length || dropped > 0, { pruned with roots })

/-- Gives the node at `path` a new name in the list that declares it: a former
bearer of the name is struck, and the node keeps its place. -/
def renameDeclared (staging : Staging) (path : Path) (name : String) : Staging :=
  match path.parent with
  | .ok parent =>
      staging.updateEntry parent fun entry =>
        (entry.unlistChild name).2.renameChild path.leaf name
  | .error _ =>
      { staging with
        roots := Entry.renameFirst path.leaf name
          (staging.roots.filter fun root => root != name) }

/-- Moves every entry at or below `old` to the same place under `new`. The
registry keeps its order. -/
def rekey (staging : Staging) (old new : Path) : Staging :=
  { staging with
    entries := Keyed.ofList (staging.entries.map fun entry =>
      ((entry.1.rebase old new).getD entry.1, entry.2)) }

/-- Renames the node at a path, together with the paths of everything staged
below it, and answers the new path. What was staged under the new name is
dropped. Without a node at the path nothing happens, nor if the name is the
one that it ends in. -/
def renameNode (staging : Staging) (path : Path) (name : String) : Option Path × Staging :=
  if !staging.contains path then (none, staging)
  else
    let target := path.withLeaf name
    if target = path then (some target, staging)
    else
      let declared := (staging.prune target).2.renameDeclared path name
      let moved := declared.rekey path target
      (some target, moved.updateEntry target fun entry => { entry with name })

end Staging

end TreePass
