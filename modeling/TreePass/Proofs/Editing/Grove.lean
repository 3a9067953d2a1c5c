import TreePass.Proofs.Editing.Tree
import TreePass.Proofs.Node.Maps
import TreePass.Proofs.Staging.Carried

/-!
# Plain trees and forests

Plain trees make a forest when each of them is placed at its names. Siblings of
different names at every depth make a well-placed one, in which every node lies
at the names that lead to its tree; edits that keep siblings apart keep this.
Conversely a node whose children are under their own names is a plain tree with
its keys and paths forgotten.
-/

namespace TreePass

namespace Tree

/-! ## Siblings of different names -/

/-- No two siblings have one name, at any depth. -/
inductive Regular : List Tree → Prop where
  | intro {trees : List Tree} (nodup : (trees.map Tree.name).Nodup)
      (below : ∀ tree ∈ trees, Regular tree.children) : Regular trees

namespace Regular

variable {trees : List Tree}

theorem nodup (hregular : Regular trees) : (trees.map Tree.name).Nodup := by
  cases hregular
  assumption

theorem child (hregular : Regular trees) {tree : Tree} (htree : tree ∈ trees) :
    Regular tree.children := by
  cases hregular with
  | intro _ hbelow => exact hbelow tree htree

theorem nil : Regular [] := ⟨List.nodup_nil, by simp⟩

/-- Among siblings of different names every tree is the one of its name. -/
theorem named?_eq (hregular : Regular trees) {tree : Tree} (htree : tree ∈ trees) :
    named? tree.name trees = some tree := by
  have hnodup := hregular.nodup
  clear hregular
  induction trees with
  | nil => simp at htree
  | cons first rest ih =>
      obtain ⟨hnew, hrest⟩ := List.nodup_cons.mp hnodup
      rw [named?_cons]
      rcases List.mem_cons.mp htree with rfl | hlater
      · exact if_pos rfl
      · have hne : first.name ≠ tree.name := fun heq => hnew (heq ▸ List.mem_map_of_mem hlater)
        rw [if_neg hne]
        exact ih hlater hrest

theorem bare (name : String) : Regular (bare name).children := ⟨List.nodup_nil, by simp [Tree.bare]⟩

theorem plant (hregular : Regular trees) {tree : Tree} (htree : Regular tree.children) :
    Regular (Tree.plant tree trees) := by
  rw [Tree.plant]
  split
  next => exact hregular
  next hnew =>
    refine ⟨?_, fun other hother => ?_⟩
    · rw [List.map_append]
      exact hregular.nodup.append (List.nodup_singleton tree.name) (by simpa using hnew)
    · rcases List.mem_append.mp hother with hold | hplanted
      · exact hregular.child hold
      · rw [List.mem_singleton.mp hplanted]
        exact htree

theorem fell (hregular : Regular trees) (name : String) : Regular (Tree.fell name trees) := by
  refine ⟨hregular.nodup.sublist ?_, fun tree htree => hregular.child (List.mem_filter.mp htree).1⟩
  exact List.Sublist.map _ List.filter_sublist

theorem updateNamed (hregular : Regular trees) {name : String} {f : Tree → Tree}
    (hname : ∀ tree, tree.name = name → (f tree).name = name)
    (hchild : ∀ tree, Regular tree.children → Regular (f tree).children) :
    Regular (Tree.updateNamed name f trees) := by
  refine ⟨?_, fun tree htree => ?_⟩
  · rw [map_name_updateNamed hname]
    exact hregular.nodup
  · obtain ⟨before, hbefore, rfl⟩ := List.mem_map.mp htree
    split
    · exact hchild before (hregular.child hbefore)
    · exact hregular.child hbefore

theorem rename (hregular : Regular trees) (old new : String) :
    Regular (Tree.rename old new trees) := by
  by_cases hkeep : old = new ∨ old ∉ trees.map Tree.name
  · rw [Tree.rename, if_pos hkeep]
    exact hregular
  · obtain ⟨hne, hold⟩ := not_or.mp hkeep
    refine ⟨?_, fun tree htree => ?_⟩
    · rw [map_name_rename hne (not_not.mp hold)]
      refine (hregular.nodup.filter _).map_on fun name hname other hother heq => ?_
      have hname' : name ≠ new := by simpa using (List.mem_filter.mp hname).2
      have hother' : other ≠ new := by simpa using (List.mem_filter.mp hother).2
      by_cases hsame : name = old
      · by_cases hsame' : other = old
        · rw [hsame, hsame']
        · rw [if_pos hsame, if_neg hsame'] at heq
          exact absurd heq.symm hother'
      · by_cases hsame' : other = old
        · rw [if_neg hsame, if_pos hsame'] at heq
          exact absurd heq hname'
        · rwa [if_neg hsame, if_neg hsame'] at heq
    · rw [Tree.rename, if_neg hkeep] at htree
      obtain ⟨before, hbefore, rfl⟩ := List.mem_map.mp htree
      have hchild := (hregular.fell new).child hbefore
      split
      · exact hchild
      · exact hchild

theorem alter {f : List Tree → List Tree}
    (hf : ∀ siblings, Regular siblings → Regular (f siblings)) (place : List String)
    (hregular : Regular trees) : Regular (Tree.alter f place trees) := by
  induction place generalizing trees with
  | nil => exact hf trees hregular
  | cons name place ih =>
      exact hregular.updateNamed (f := overChildren (Tree.alter f place)) (fun _ hname => hname)
        fun tree hchildren => ih hchildren

theorem siblings (hregular : Regular trees) {place : List String} {siblings : List Tree}
    (hsiblings : siblings? trees place = some siblings) : Regular siblings := by
  induction place generalizing trees with
  | nil =>
      cases hsiblings
      exact hregular
  | cons name place ih =>
      obtain ⟨tree, htree, hsiblings⟩ := Option.bind_eq_some_iff.mp hsiblings
      exact ih (hregular.child (List.mem_of_find?_eq_some htree)) hsiblings

end Regular

/-! ## From trees to nodes -/

mutual

/-- The node that a tree is at a path; keys are names and paths are made of the
names above. -/
def toNode (path : Path) : Tree → Node
  | ⟨name, content, children⟩ =>
      ⟨name, content.documentation, content.attributes,
        content.members.map fun member => (member.name, member),
        toChildren path children, path⟩

def toChildren (path : Path) : List Tree → List (String × Node)
  | [] => []
  | tree :: rest =>
      (tree.name, tree.toNode (path.child tree.name)) :: toChildren path rest

end

/-- The forest whose roots are some trees, each at its name. -/
def toForest (trees : List Tree) : Forest :=
  ⟨trees.map fun tree => tree.toNode (.single tree.name)⟩

theorem toChildren_eq (path : Path) (trees : List Tree) :
    toChildren path trees =
      trees.map fun tree => (tree.name, tree.toNode (path.child tree.name)) := by
  induction trees with
  | nil => rfl
  | cons tree rest ih => rw [toChildren, List.map_cons, ih]

@[simp] theorem toNode_name (tree : Tree) (path : Path) : (tree.toNode path).name = tree.name := by
  cases tree
  rw [toNode]

@[simp] theorem toNode_path (tree : Tree) (path : Path) : (tree.toNode path).path = path := by
  cases tree
  rw [toNode]

@[simp] theorem toNode_children (tree : Tree) (path : Path) :
    (tree.toNode path).children =
      tree.children.map fun child => (child.name, child.toNode (path.child child.name)) := by
  cases tree
  rw [toNode, toChildren_eq]

@[simp] theorem toNode_members (tree : Tree) (path : Path) :
    (tree.toNode path).members =
      tree.content.members.map fun member => (member.name, member) := by
  cases tree
  rw [toNode]

/-- A tree is staged as the node that it makes. -/
theorem ofNode_toNode (tree : Tree) (path : Path) :
    Entry.ofNode (tree.toNode path) = tree.entry := by
  obtain ⟨name, content, children⟩ := tree
  have hnames : Keyed.keys (toChildren path children) = children.map Tree.name := by
    rw [toChildren_eq, Keyed.keys, List.map_map]
    rfl
  rw [toNode, Entry.ofNode, Node.childNames, Keyed.values_map_label, hnames]
  rfl

theorem map_name_toForest (trees : List Tree) :
    (toForest trees).roots.map Node.name = trees.map Tree.name := by
  rw [toForest, List.map_map]
  exact List.map_congr_left fun tree _ => tree.toNode_name _

theorem toNode_placed {trees : List Tree} (hregular : Regular trees) {tree : Tree}
    (htree : tree ∈ trees) (path : Path) : (tree.toNode path).PlacedAt path := by
  induction hregular generalizing tree path with
  | @intro trees _ hbelow ih =>
      refine .intro (tree.toNode_path path) ?_ ?_ ?_ ?_
      · rw [toNode_members]
        intro entry hentry
        obtain ⟨member, _, rfl⟩ := List.mem_map.mp hentry
        rfl
      · rw [toNode_children]
        intro entry hentry
        obtain ⟨child, _, rfl⟩ := List.mem_map.mp hentry
        exact (child.toNode_name _).symm
      · rw [toNode_children, Keyed.Distinct, Keyed.keys, List.map_map]
        exact (hbelow tree htree).nodup
      · rw [toNode_children]
        intro entry hentry
        obtain ⟨child, hchild, rfl⟩ := List.mem_map.mp hentry
        rw [toNode_name]
        exact ih tree htree hchild _

/-! ## What lies in a forest of trees -/

theorem toNode_mem_preorder {tree found : Tree} {names : List String}
    (hfound : tree.descend names = some found) (path : Path) :
    found.toNode (path.extend names) ∈ (tree.toNode path).preorder := by
  induction names generalizing tree path with
  | nil =>
      cases hfound
      rw [Path.extend_nil]
      exact Node.mem_preorder_self _
  | cons name names ih =>
      rw [descend] at hfound
      obtain ⟨child, hchild, hfound⟩ := Option.bind_eq_some_iff.mp hfound
      have hmem : (child.name, child.toNode (path.child child.name)) ∈
          (tree.toNode path).children := by
        rw [toNode_children]
        exact List.mem_map_of_mem (List.mem_of_find?_eq_some hchild)
      rw [← Path.extend_child, ← name_of_named? hchild]
      exact Node.mem_preorder_of_child hmem (ih hfound _)

theorem exists_descend_of_mem {trees : List Tree} (hregular : Regular trees) {tree : Tree}
    (htree : tree ∈ trees) {path : Path} {node : Node}
    (hnode : node ∈ (tree.toNode path).preorder) :
    ∃ names found, tree.descend names = some found ∧
      node = found.toNode (path.extend names) := by
  induction hregular generalizing tree path with
  | @intro trees _ hbelow ih =>
      rcases Node.mem_preorder_iff.mp hnode with rfl | ⟨entry, hentry, hnode⟩
      · exact ⟨[], tree, rfl, by rw [Path.extend_nil]⟩
      · rw [toNode_children] at hentry
        obtain ⟨child, hchild, rfl⟩ := List.mem_map.mp hentry
        obtain ⟨names, found, hfound, rfl⟩ := ih tree htree hchild hnode
        refine ⟨child.name :: names, found, ?_, by rw [Path.extend_child]⟩
        rw [descend, (hbelow tree htree).named?_eq hchild]
        exact hfound

/-- The nodes of the forest are the trees that names lead to, each at its names. -/
theorem mem_nodes_toForest {trees : List Tree} (hregular : Regular trees) {node : Node} :
    node ∈ (toForest trees).nodes ↔
      ∃ path found, find? trees path.segments = some found ∧ node = found.toNode path := by
  constructor
  · intro hnode
    obtain ⟨root, hroot, hnode⟩ := List.mem_flatMap.mp hnode
    obtain ⟨tree, htree, rfl⟩ := List.mem_map.mp hroot
    obtain ⟨names, found, hfound, rfl⟩ := exists_descend_of_mem hregular htree hnode
    refine ⟨(Path.single tree.name).extend names, found, ?_, rfl⟩
    rw [Path.segments_extend, Path.segments_single, List.singleton_append, find?,
      hregular.named?_eq htree]
    exact hfound
  · rintro ⟨⟨name, names⟩, found, hfound, rfl⟩
    obtain ⟨tree, htree, hfound⟩ := Option.bind_eq_some_iff.mp hfound
    refine List.mem_flatMap.mpr ⟨tree.toNode (.single tree.name), ?_, ?_⟩
    · exact List.mem_map_of_mem (List.mem_of_find?_eq_some htree)
    · rw [name_of_named? htree]
      exact toNode_mem_preorder hfound (.single name)

/-! ## From nodes to trees -/

mutual

/-- The tree of a node, whose keys and paths are forgotten. -/
def ofNode : Node → Tree
  | ⟨name, documentation, attributes, members, children, _⟩ =>
      ⟨name, ⟨documentation, attributes, Keyed.values members⟩, ofChildren children⟩

def ofChildren : List (String × Node) → List Tree
  | [] => []
  | (_, child) :: rest => ofNode child :: ofChildren rest

end

theorem ofChildren_eq (children : List (String × Node)) :
    ofChildren children = (Keyed.values children).map ofNode := by
  induction children with
  | nil => rfl
  | cons entry rest ih => rw [ofChildren, ih, Keyed.values_cons, List.map_cons]

@[simp] theorem ofNode_name (node : Node) : (ofNode node).name = node.name := by
  cases node
  rw [ofNode]

@[simp] theorem ofNode_children (node : Node) :
    (ofNode node).children = (Keyed.values node.children).map ofNode := by
  cases node
  rw [ofNode, ofChildren_eq]

theorem map_name_ofChildren {children : List (String × Node)}
    (hkeys : ∀ entry ∈ children, entry.1 = entry.2.name) :
    ((Keyed.values children).map ofNode).map Tree.name = Keyed.keys children := by
  rw [Keyed.values, Keyed.keys, List.map_map, List.map_map]
  exact List.map_congr_left fun entry hentry =>
    (ofNode_name entry.2).trans (hkeys entry hentry).symm

theorem entry_ofNode {node : Node} (hkeys : ∀ entry ∈ node.children, entry.1 = entry.2.name) :
    (ofNode node).entry = Entry.ofNode node := by
  have hnames := map_name_ofChildren hkeys
  rw [← ofNode_children] at hnames
  cases node
  simp only [entry, hnames, Entry.ofNode, Node.childNames]
  rw [ofNode]

theorem named?_ofChildren {children : List (String × Node)}
    (hkeys : ∀ entry ∈ children, entry.1 = entry.2.name) (name : String) :
    named? name ((Keyed.values children).map ofNode) =
      (Keyed.get? name children).map ofNode := by
  induction children with
  | nil => rfl
  | cons entry rest ih =>
      obtain ⟨key, child⟩ := entry
      have hkey : key = child.name := hkeys _ List.mem_cons_self
      rw [Keyed.values_cons, List.map_cons, named?_cons, ofNode_name, Keyed.get?_cons, ← hkey]
      split
      next => rfl
      next => exact ih fun entry hentry => hkeys entry (List.mem_cons_of_mem _ hentry)

/-- Going down a tree finds what going down the node finds. -/
theorem descend_ofNode {node : Node} (hnode : node.KeyedByName) (names : List String) :
    ((ofNode node).descend names).map entry = (node.descend names).map Entry.ofNode := by
  induction names generalizing node with
  | nil => exact congrArg some (entry_ofNode fun _ hentry => hnode.key_eq hentry)
  | cons name names ih =>
      rw [descend, ofNode_children, named?_ofChildren fun _ hentry => hnode.key_eq hentry,
        Node.descend, Node.child?]
      cases hchild : Keyed.get? name node.children with
      | none => rfl
      | some child => exact ih (hnode.child (Keyed.mem_of_get? hchild))

theorem regular_ofNode {node : Node} (hnode : node.KeyedByName) (hdistinct : node.Distinct) :
    Regular (ofNode node).children := by
  induction node using Node.induction with
  | step node ih =>
      rw [ofNode_children]
      refine ⟨?_, fun tree htree => ?_⟩
      · rw [map_name_ofChildren fun _ hentry => hnode.key_eq hentry]
        exact hdistinct.children
      · obtain ⟨child, hchild, rfl⟩ := List.mem_map.mp htree
        obtain ⟨entry, hentry, rfl⟩ := List.mem_map.mp hchild
        exact ih entry hentry (hnode.child hentry) (hdistinct.child hentry)

end Tree

end TreePass
