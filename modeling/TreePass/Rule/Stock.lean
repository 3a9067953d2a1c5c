import TreePass.Rule.Basic

/-!
# Ready-made rules

Rules that are made of functions. They rename by a table, reorder, note down
what they were given, fail on purpose, or run an action and change nothing.
-/

namespace TreePass.Rule

variable {m : Type → Type} [Monad m]

def ofTree (name : String) (f : Forest → m Forest) : Rule m :=
  .custom name { Operations.keep with onTree := f }

def ofNode (name : String) (f : Forest → Node → m (Option Node)) : Rule m :=
  .custom name { Operations.keep with onNode := f }

def ofMember (name : String) (f : Forest → Node → Member → m (Option Member)) : Rule m :=
  .custom name { Operations.keep with onMember := f }

/-- The rule that changes nothing. -/
def idle (name : String) : Rule m :=
  .custom name .keep

def treeName : String := "tree_fn"

def nodeName : String := "node_fn"

def memberName : String := "member_fn"

def seed (roots : List Node) : Rule m :=
  ofTree treeName fun _ => pure (.ofRoots roots)

/-- Reverses the order of the roots. -/
def reverseRoots : Rule m :=
  ofTree treeName fun forest => pure (.ofRoots forest.roots.reverse)

def observeTree (action : m Unit) : Rule m :=
  ofTree treeName fun forest => do
    action
    pure forest

def observeNode (action : m Unit) : Rule m :=
  ofNode nodeName fun _ node => do
    action
    pure (some node)

def observeMember (action : m Unit) : Rule m :=
  ofMember memberName fun _ _ member => do
    action
    pure (some member)

/-- The name that a table gives to a name; one that is not in it stays. -/
def renamed (table : List (String × String)) (name : String) : String :=
  (Keyed.get? name table).getD name

def mapNodeNames (table : List (String × String)) : Rule m :=
  ofNode nodeName fun _ node => pure (some { node with name := renamed table node.name })

/-- Renames the children of nodes by a table. Their keys and places stay. -/
def mapChildNames (table : List (String × String)) : Rule m :=
  ofNode nodeName fun _ node =>
    let children := node.children.map fun (key, child) =>
      (key, { child with name := renamed table child.name })
    pure (some { node with children })

def mapMemberNames (table : List (String × String)) : Rule m :=
  ofMember memberName fun _ _ member =>
    pure (some { member with name := renamed table member.name })

/-- What a node is, where it stands, and how large it and its forest are. -/
def nodeNote (forest : Forest) (node : Node) : String :=
  node.path.text ++ "|" ++ node.name ++ "|" ++ toString forest.nodeCount ++ "|" ++
    toString node.members.length

/-- Documents nodes by what they are. -/
def noteNode : Rule m :=
  ofNode nodeName fun forest node =>
    pure (some { node with documentation := some (nodeNote forest node) })

def noteMember : Rule m :=
  ofMember memberName fun forest node member =>
    pure (some { member with
      documentation := some (nodeNote forest node ++ "|" ++ member.name) })

/-- Reverses the order of children and members. -/
def reverseNode : Rule m :=
  ofNode nodeName fun _ node =>
    pure (some { node with
      children := node.children.reverse, members := node.members.reverse })

def dropMember (name : String) : Rule m :=
  ofMember memberName fun _ _ member =>
    pure (if member.name = name then none else some member)

variable [MonadExceptOf Fault m]

/-- Lists a child at a path of the forest without making it, and builds the
forest again. -/
def declareChild (path : Path) (name : String) (policy : MissingChild) : Rule m :=
  ofTree treeName fun forest =>
    match ((Staging.ofForest forest).declareChild path name).2.build policy with
    | .ok built => pure built
    | .error fault => throw (Fault.build fault)

def failTree (message : String) : Rule m :=
  ofTree treeName fun _ => throw (Fault.custom message)

def failNode (name message : String) : Rule m :=
  ofNode nodeName fun _ node =>
    if node.name = name then throw (Fault.custom message) else pure (some node)

def failMember (name message : String) : Rule m :=
  ofMember memberName fun _ _ member =>
    if member.name = name then throw (Fault.custom message) else pure (some member)

end TreePass.Rule
