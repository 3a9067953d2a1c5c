import TreePass.Forest.Cursor
import TreePass.Proofs.Forest.Accuracy

/-!
# Addressing nodes

A node can be come by in several ways: a walk hands it out, a path leads to it, it is
the last node on the way to a path, it is the parent of another one. A path leads on
by the keys of the maps, a parent is looked up at the path that a node records, and a
walk uses neither. In a forest whose nodes stand at their keys, and whose roots have
different names, all of them agree.
-/

namespace TreePass

/-! ## Walks -/

namespace Cursor

/-- From every stack, a walk hands out each node of the stack with what lies in it. -/
theorem toList_eq (cursor : Cursor) : cursor.toList = cursor.stack.flatMap Node.preorder := by
  induction cursor using toList.induct with
  | case1 cursor hdone =>
      obtain ⟨stack⟩ := cursor
      cases stack with
      | nil => unfold toList; rfl
      | cons top rest => simp [next?] at hdone
  | case2 cursor node after hnext ih =>
      obtain ⟨stack⟩ := cursor
      cases stack with
      | nil => simp [next?] at hnext
      | cons top rest =>
          simp only [next?, Option.some.injEq, Prod.mk.injEq] at hnext
          obtain ⟨rfl, rfl⟩ := hnext
          -- The children take the place of the top, so its pre-order comes before the rest.
          unfold toList
          simp only [next?, ih, List.flatMap_append, List.flatMap_cons, Node.preorder_eq top,
            List.cons_append]

end Cursor

namespace Node

variable {node inner : Node} {keys : List String}

/-- What is in a node is the node itself or a child of something in it. -/
theorem mem_preorder_iff_held : inner ∈ node.preorder ↔
    inner = node ∨ ∃ holder ∈ node.preorder, inner ∈ Keyed.values holder.children := by
  constructor
  · intro hinner
    induction node using Node.induction with
    | step node ih =>
        rcases mem_preorder_iff.mp hinner with rfl | ⟨entry, hentry, hinner⟩
        · exact .inl rfl
        · right
          rcases ih entry hentry hinner with rfl | ⟨holder, hholder, hheld⟩
          · exact ⟨node, node.mem_preorder_self, List.mem_map_of_mem hentry⟩
          · exact ⟨holder, mem_preorder_of_child hentry hholder, hheld⟩
  · rintro (rfl | ⟨holder, hholder, hheld⟩)
    · exact inner.mem_preorder_self
    · obtain ⟨entry, hentry, rfl⟩ := List.mem_map.mp hheld
      exact mem_preorder_trans hholder (mem_preorder_of_child hentry entry.2.mem_preorder_self)

/-- Everything in a standing node stands where it says. -/
theorem StandsAt.of_mem {path : Path} (hstands : node.StandsAt path)
    (hinner : inner ∈ node.preorder) : inner.StandsAt inner.path := by
  induction node using Node.induction generalizing path with
  | step node ih =>
      obtain ⟨hpath, hchildren⟩ := standsAt_iff.mp hstands
      rcases mem_preorder_iff.mp hinner with rfl | ⟨entry, hentry, hinner⟩
      · rwa [hpath]
      · exact ih entry hentry (hchildren entry hentry) hinner

/-! ## Ways down from a node -/

theorem isSome_descent (node : Node) (keys : List String) :
    (node.descent keys).isSome = (node.descend keys).isSome := by
  induction keys generalizing node with
  | nil => rfl
  | cons key keys ih =>
      rw [descent, descend]
      cases node.child? key with
      | none => rfl
      | some child => simp [ih child]

theorem length_of_descent {nodes : List Node} (hdescent : node.descent keys = some nodes) :
    nodes.length = keys.length + 1 := by
  induction keys generalizing node nodes with
  | nil =>
      cases hdescent
      rfl
  | cons key keys ih =>
      obtain ⟨child, -, hdescent⟩ := Option.bind_eq_some_iff.mp hdescent
      obtain ⟨below, hbelow, rfl⟩ := Option.map_eq_some_iff.mp hdescent
      rw [List.length_cons, List.length_cons, ih hbelow]

/-- The nodes on the way are those to which the first keys lead. -/
theorem getElem?_of_descent {nodes : List Node} (hdescent : node.descent keys = some nodes)
    {count : Nat} (hcount : count ≤ keys.length) :
    nodes[count]? = node.descend (keys.take count) := by
  induction keys generalizing node nodes count with
  | nil =>
      cases hdescent
      obtain rfl : count = 0 := Nat.le_zero.mp hcount
      rfl
  | cons key keys ih =>
      obtain ⟨child, hchild, hdescent⟩ := Option.bind_eq_some_iff.mp hdescent
      obtain ⟨below, hbelow, rfl⟩ := Option.map_eq_some_iff.mp hdescent
      cases count with
      | zero => rfl
      | succ count =>
          rw [List.getElem?_cons_succ, ih hbelow (Nat.le_of_succ_le_succ hcount),
            List.take_succ_cons, descend, hchild, Option.bind_some]

end Node

namespace Forest

variable {forest : Forest} {node : Node} {path : Path}

theorem toList_cursor (forest : Forest) : forest.cursor.toList = forest.nodes :=
  forest.cursor.toList_eq

theorem mem_nodes_iff_held : node ∈ forest.nodes ↔
    node ∈ forest.roots ∨ ∃ holder ∈ forest.nodes, node ∈ Keyed.values holder.children := by
  simp only [nodes, List.mem_flatMap, @Node.mem_preorder_iff_held _ node]
  constructor
  · rintro ⟨root, hroot, rfl | ⟨holder, hholder, hheld⟩⟩
    · exact .inl hroot
    · exact .inr ⟨holder, ⟨root, hroot, hholder⟩, hheld⟩
  · rintro (hroot | ⟨holder, ⟨root, hroot, hholder⟩, hheld⟩)
    · exact ⟨node, hroot, .inl rfl⟩
    · exact ⟨root, hroot, .inr ⟨holder, hholder, hheld⟩⟩

theorem mem_nodes_iff_leads :
    node ∈ forest.nodes ↔ ∃ root ∈ forest.roots, ∃ keys, root.Leads keys node := by
  simp only [nodes, List.mem_flatMap, Node.mem_preorder_iff_leads]

/-! ## Parents -/

theorem Placed.parentOf_of_root (hplaced : forest.Placed) (hroot : node ∈ forest.roots) :
    forest.parentOf node = none := by
  rw [parentOf, Node.parentPath, (Node.standsAt_iff.mp (placed_iff.mp hplaced node hroot)).1]
  rfl

/-- A child records the path of the node that holds it, and one key more. -/
theorem Placed.parentPath_of_held (hplaced : forest.Placed) {holder : Node}
    (hholder : holder ∈ forest.nodes) (hheld : node ∈ Keyed.values holder.children) :
    node.parentPath = some holder.path := by
  obtain ⟨root, hroot, hholder⟩ := List.mem_flatMap.mp hholder
  obtain ⟨entry, hentry, rfl⟩ := List.mem_map.mp hheld
  have hstands := (placed_iff.mp hplaced root hroot).of_mem hholder
  rw [Node.parentPath, (Node.standsAt_iff.mp ((Node.standsAt_iff.mp hstands).2 entry hentry)).1,
    Path.parent_child]
  rfl

/-! ## Ways down from a root -/

/-- What the nodes on the way to a path have to be: there is one for each name of the
path, the first is a root, the last is at the path, and each is the parent of the next. -/
structure Lineage (forest : Forest) (path : Path) (nodes : List Node) : Prop where
  length_eq : nodes.length = path.length
  segments_eq : ∀ count node, nodes[count]? = some node →
    node.path.segments = path.segments.take (count + 1)
  head_mem : ∃ root ∈ forest.roots, nodes.head? = some root
  getLast_eq : nodes.getLast? = forest.find? path
  parent_eq : ∀ count node child, nodes[count]? = some node → nodes[count + 1]? = some child →
    forest.parentOf child = some node

theorem isSome_ancestry (forest : Forest) (path : Path) :
    (forest.ancestry path).isSome = (forest.find? path).isSome := by
  rw [ancestry, find?]
  cases forest.root? path.root with
  | none => rfl
  | some root => exact root.isSome_descent path.rest

theorem length_of_ancestry {nodes : List Node} (hnodes : forest.ancestry path = some nodes) :
    nodes.length = path.length := by
  obtain ⟨root, -, hdescent⟩ := Option.bind_eq_some_iff.mp hnodes
  exact Node.length_of_descent hdescent

/-- The nodes on the way to a path are those found at the paths above it. -/
theorem getElem?_of_ancestry {nodes : List Node} (hnodes : forest.ancestry path = some nodes)
    {count : Nat} (hcount : count < path.length) :
    nodes[count]? = forest.find? (path.upTo count) := by
  obtain ⟨root, hroot, hdescent⟩ := Option.bind_eq_some_iff.mp hnodes
  rw [Node.getElem?_of_descent hdescent (Nat.le_of_lt_succ hcount), find?, Path.upTo, hroot,
    Option.bind_some]

theorem Placed.lineage (hplaced : forest.Placed) {nodes : List Node}
    (hnodes : forest.ancestry path = some nodes) : forest.Lineage path nodes := by
  have hlength := length_of_ancestry hnodes
  -- Every one of the nodes is what is found at its own part of the path.
  have hfound {count : Nat} {node : Node} (hnode : nodes[count]? = some node) :
      count < path.length ∧ forest.find? (path.upTo count) = some node := by
    have hcount := hlength ▸ (List.getElem?_eq_some_iff.mp hnode).1
    exact ⟨hcount, getElem?_of_ancestry hnodes hcount ▸ hnode⟩
  refine ⟨hlength, ?segments, ?head, ?last, ?parent⟩
  case segments =>
    intro count node hnode
    rw [hplaced.path_of_find? (hfound hnode).2, Path.segments_upTo]
  case head =>
    obtain ⟨root, hroot, hdescent⟩ := Option.bind_eq_some_iff.mp hnodes
    refine ⟨root, mem_of_root? hroot, ?_⟩
    rw [List.head?_eq_getElem?, Node.getElem?_of_descent hdescent (Nat.zero_le _)]
    rfl
  case last =>
    rw [List.getLast?_eq_getElem?, hlength, getElem?_of_ancestry hnodes (by simp [Path.length])]
    simp [Path.length]
  case parent =>
    intro count node child hnode hchild
    obtain ⟨hcount, hfoundChild⟩ := hfound hchild
    rw [parentOf, Node.parentPath, hplaced.path_of_find? hfoundChild,
      Path.upTo_succ (Nat.lt_of_succ_lt_succ hcount), Path.parent_child]
    exact (hfound hnode).2

/-! ## Different roots have different names -/

section Named

variable (hplaced : forest.Placed) (hdistinct : forest.Distinct)
  (hnames : (forest.roots.map Node.name).Nodup)

include hplaced hdistinct hnames

theorem find?_path (hnode : node ∈ forest.nodes) : forest.find? node.path = some node := by
  obtain ⟨root, hroot, keys, hleads⟩ := mem_nodes_iff_leads.mp hnode
  rw [hplaced.accurate root hroot keys node hleads, find?, root?_of_mem hnames hroot,
    Option.bind_some]
  exact hleads.descend_eq (hdistinct root hroot)

/-- What is found at a path is the one node that records it. -/
theorem find?_eq_some_iff :
    forest.find? path = some node ↔ node ∈ forest.nodes ∧ node.path = path := by
  constructor
  · intro hfound
    obtain ⟨root, hroot, hdescend⟩ := Option.bind_eq_some_iff.mp hfound
    have hinner := Node.mem_preorder_of_descend hdescend
    exact ⟨List.mem_flatMap.mpr ⟨root, mem_of_root? hroot, hinner⟩, hplaced.path_of_find? hfound⟩
  · rintro ⟨hnode, rfl⟩
    exact find?_path hplaced hdistinct hnames hnode

theorem parentOf_of_held {holder : Node} (hholder : holder ∈ forest.nodes)
    (hheld : node ∈ Keyed.values holder.children) : forest.parentOf node = some holder := by
  rw [parentOf, hplaced.parentPath_of_held hholder hheld, Option.bind_some]
  exact find?_path hplaced hdistinct hnames hholder

/-- The parent of a node is the one node that holds it. -/
theorem parentOf_eq_some_iff (hnode : node ∈ forest.nodes) {parent : Node} :
    forest.parentOf node = some parent ↔
      parent ∈ forest.nodes ∧ node ∈ Keyed.values parent.children := by
  constructor
  · intro hparent
    rcases mem_nodes_iff_held.mp hnode with hroot | ⟨holder, hholder, hheld⟩
    · rw [hplaced.parentOf_of_root hroot] at hparent
      cases hparent
    · rw [parentOf_of_held hplaced hdistinct hnames hholder hheld] at hparent
      cases hparent
      exact ⟨hholder, hheld⟩
  · rintro ⟨hparent, hheld⟩
    exact parentOf_of_held hplaced hdistinct hnames hparent hheld

theorem parentOf_eq_none_iff (hnode : node ∈ forest.nodes) :
    forest.parentOf node = none ↔ node ∈ forest.roots := by
  constructor
  · intro hnone
    rcases mem_nodes_iff_held.mp hnode with hroot | ⟨holder, hholder, hheld⟩
    · exact hroot
    · rw [parentOf_of_held hplaced hdistinct hnames hholder hheld] at hnone
      cases hnone
  · exact hplaced.parentOf_of_root

end Named

/-- Every way to address a node comes to the same, in a forest that has been made in some way
(`Constructed.placed`), with maps without repeated keys and roots of different names. A walk
hands out all nodes, each of them once, and no two under one path. A node is found at the
path that it records, and nothing is at any other path. The way to a path exists if the path
is there, and is a lineage. A node without a parent is a root, and the parent of another
node is what holds it. -/
theorem addressing_coherent (hplaced : forest.Placed) (hdistinct : forest.Distinct)
    (hnames : (forest.roots.map Node.name).Nodup) :
    ((∀ node, node ∈ forest.cursor.toList ↔
        ∃ root ∈ forest.roots, ∃ keys, root.Leads keys node) ∧
      (forest.cursor.toList.map Node.path).Nodup) ∧
    (∀ node ∈ forest.cursor.toList, forest.find? node.path = some node) ∧
    (∀ path, forest.contains path = true ↔
      ∃ node ∈ forest.cursor.toList, node.path = path) ∧
    (∀ path, (forest.ancestry path).isSome = (forest.find? path).isSome ∧
      ∀ nodes, forest.ancestry path = some nodes → forest.Lineage path nodes) ∧
    (∀ node ∈ forest.cursor.toList,
      (forest.parentOf node = none ↔ node ∈ forest.roots) ∧
        ∀ parent, forest.parentOf node = some parent ↔
          parent ∈ forest.cursor.toList ∧ node ∈ Keyed.values parent.children) := by
  rw [toList_cursor]
  refine ⟨⟨fun _ => mem_nodes_iff_leads, ?paths⟩, ?found, ?contained, ?ways, ?parents⟩
  case paths =>
    apply nodup_paths_of_standing hnames (placed_iff.mp hplaced)
    intro node hnode
    obtain ⟨root, hroot, hinner⟩ := List.mem_flatMap.mp hnode
    exact (hdistinct root hroot node hinner).2
  case found =>
    exact fun _ => find?_path hplaced hdistinct hnames
  case contained =>
    intro path
    simp only [contains, Option.isSome_iff_exists, find?_eq_some_iff hplaced hdistinct hnames]
  case ways =>
    exact fun path => ⟨isSome_ancestry forest path, fun _ => hplaced.lineage⟩
  case parents =>
    intro node hnode
    exact ⟨parentOf_eq_none_iff hplaced hdistinct hnames hnode,
      fun _ => parentOf_eq_some_iff hplaced hdistinct hnames hnode⟩

/-- Each of two siblings is kept under the name of the other one, and there is a second
root with the name of a node below the first. -/
def crossed : Forest :=
  ofRoots [
    { Node.named "a" with
      children := [("x", .named "y"), ("y", (Node.named "x").withChild (.named "z"))] },
    .named "z"]

theorem addressing_coherent_crossed :
    crossed.Placed ∧ crossed.Distinct ∧ (crossed.roots.map Node.name).Nodup ∧
    crossed.find? ⟨"a", ["x"]⟩ = some (.placed "y" ⟨"a", ["x"]⟩) ∧
    (∀ node ∈ crossed.cursor.toList, node.path ≠ ⟨"a", ["x", "z"]⟩) ∧
    ∃ node ∈ crossed.cursor.toList, node.path = ⟨"a", ["y", "z"]⟩ ∧
      (crossed.parentOf node).map Node.name = some "x" ∧
      ∃ nodes, crossed.ancestry node.path = some nodes ∧ crossed.Lineage node.path nodes ∧
        nodes.map Node.name = ["a", "x", "z"] := by
  have hplaced : crossed.Placed := placed_ofRoots _
  have hdistinct : crossed.Distinct := by decide
  have hnames : (crossed.roots.map Node.name).Nodup := by decide
  obtain ⟨-, -, hcontains, hways, -⟩ := addressing_coherent hplaced hdistinct hnames
  obtain ⟨node, hnode, hpath⟩ := (hcontains ⟨"a", ["y", "z"]⟩).mp rfl
  refine ⟨hplaced, hdistinct, hnames, rfl, ?absent, node, hnode, hpath, ?parent, ?way⟩
  case absent =>
    intro other hother hpath
    have hcontained := (hcontains ⟨"a", ["x", "z"]⟩).mpr ⟨other, hother, hpath⟩
    cases hcontained
  case parent =>
    rw [parentOf, Node.parentPath, hpath]
    rfl
  case way =>
    rw [hpath]
    exact ⟨_, rfl, (hways _).2 _ rfl, rfl⟩

end Forest

end TreePass
