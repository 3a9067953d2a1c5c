import TreePass.Staging.Basic

/-!
# Building a forest

Building reads a staging area from its root names down, through the child lists
of the entries, and makes the nodes that it meets. What nobody lists is left
out. A listed child without an entry is a gap, which is refused or filled as
the caller says. The recursion ends because it only descends to registered
paths, and these are bounded in length.
-/

namespace TreePass

/-- What becomes of a listed child that has no entry. -/
inductive MissingChild where
  | refuse
  /-- An empty node takes its place. -/
  | fill
deriving DecidableEq, Repr, Inhabited

/-- What is wrong with staged nodes. -/
inductive BuildFault where
  | missingChild (parent : Path) (child : String)
  | missingRoot (root : String)
  | duplicateMember (path : Path) (member : String)
  | nodeNotFound (path : Path)
  | duplicateNode (path : Path)
deriving DecidableEq, Repr

/-- The wording of a build fault. -/
def BuildFault.message : BuildFault → String
  | .missingChild parent child =>
      s!"Node '{parent.text}' declares child '{child}' but no builder was registered for it"
  | .missingRoot root => s!"Root '{root}' is declared but no builder was registered for it"
  | .duplicateMember path member =>
      s!"Node '{path.text}' declares member '{member}' more than once"
  | .nodeNotFound path => s!"No node builder registered at '{path.text}'"
  | .duplicateNode path => s!"Node '{path.text}' is staged more than once"

/-- The first name of a list that has occurred before, in `seen` or earlier in
the list. -/
def firstRepeated (seen : List String) : List String → Option String
  | [] => none
  | name :: rest =>
      if seen.contains name then some name else firstRepeated (name :: seen) rest

namespace Staging

/-- The length of the longest registered path. -/
def height (staging : Staging) : Nat :=
  staging.entries.foldr (fun entry height => max entry.1.length height) 0

/-- No registered path is longer than the height. -/
theorem length_le_height {staging : Staging} {path : Path}
    (hcontains : staging.contains path = true) : path.length ≤ staging.height := by
  obtain ⟨roots, entries⟩ := staging
  have hmem : path ∈ Keyed.keys entries := (Keyed.contains_iff_mem_keys path entries).mp hcontains
  clear hcontains
  induction entries with
  | nil => simp [Keyed.keys] at hmem
  | cons entry rest ih =>
      simp only [Keyed.keys, List.map_cons, List.mem_cons] at hmem
      rcases hmem with rfl | hrest
      · exact Nat.le_max_left _ _
      · exact Nat.le_trans (ih hrest) (Nat.le_max_right _ _)

/-- The members of an entry as a map by name. -/
def buildMembers (path : Path) (members : List Member) :
    Except BuildFault (List (String × Member)) :=
  match firstRepeated [] (members.map Member.name) with
  | some name => .error (.duplicateMember path name)
  | none => .ok (members.map fun member => (member.name, member))

/-- What stands for a listed child without an entry. -/
def buildGap (policy : MissingChild) (parent : Path) (name : String) : Except BuildFault Node :=
  match policy with
  | .refuse => .error (.missingChild parent name)
  | .fill => .ok (Node.placed name (parent.child name))

/-- Makes the node staged at a path, its members first and then its children
in the order in which they are listed. -/
def buildAt (staging : Staging) (policy : MissingChild) (path : Path) : Except BuildFault Node :=
  match staging.entry? path with
  | none => .error (.nodeNotFound path)
  | some entry => do
      let members ← buildMembers path entry.members
      let children ← entry.children.mapM fun name => do
        let child ←
          if _hchild : staging.contains (path.child name) then
            staging.buildAt policy (path.child name)
          else buildGap policy path name
        pure (name, child)
      pure ⟨entry.name, entry.documentation, entry.attributes, members,
        Keyed.ofList children, path⟩
termination_by staging.height + 1 - path.length
decreasing_by
  have := length_le_height _hchild
  rw [Path.length_child] at this ⊢
  omega

def buildRoot (staging : Staging) (policy : MissingChild) (name : String) :
    Except BuildFault Node :=
  if staging.contains (.single name) then staging.buildAt policy (.single name)
  else
    match policy with
    | .refuse => .error (.missingRoot name)
    | .fill => .ok (Node.named name)

/-- Makes the forest of all declared roots, in order. -/
def build (staging : Staging) (policy : MissingChild) : Except BuildFault Forest := do
  let roots ← staging.roots.mapM (staging.buildRoot policy)
  pure (Forest.ofRoots roots)

/-- Makes one node, which stands where it stands in the tree of its root: the
whole tree is made and the node is taken from it. -/
def buildNode (staging : Staging) (policy : MissingChild) (path : Path) :
    Except BuildFault Node := do
  if !staging.contains path then throw (.nodeNotFound path)
  let root ← staging.buildAt policy (.single path.root)
  match (Forest.ofRoots [root]).find? path with
  | some node => pure node
  | none => throw (.nodeNotFound path)

end Staging

end TreePass
