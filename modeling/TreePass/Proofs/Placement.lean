import Mathlib.Data.List.Nodup
import TreePass.Forest.Basic
import TreePass.Proofs.Keyed
import TreePass.Proofs.Path

/-!
# Placement

A node is placed at a path when the path is recorded in it and everything below
it stands where the names say: keys are names, and the path of a child is the
path of its parent and the name of the child. In a well placed forest every
recorded path is therefore the list of the names from a root down.
-/

namespace TreePass

namespace Node

theorem preorderAll_eq (children : List (String × Node)) :
    preorderAll children = (Keyed.values children).flatMap preorder := by
  induction children with
  | nil => rfl
  | cons entry rest ih =>
      rw [preorderAll, Keyed.values_cons, List.flatMap_cons, ih]

theorem preorder_eq (node : Node) :
    node.preorder = node :: (Keyed.values node.children).flatMap preorder := by
  rw [← preorderAll_eq]
  cases node
  rw [preorder]

/-- What is in a node is the node itself or in one of its children. -/
theorem mem_preorder_iff {node inner : Node} :
    inner ∈ node.preorder ↔ inner = node ∨ ∃ entry ∈ node.children, inner ∈ entry.2.preorder := by
  rw [preorder_eq, List.mem_cons, Keyed.values, List.flatMap_map, List.mem_flatMap]

theorem mem_preorder_self (node : Node) : node ∈ node.preorder :=
  mem_preorder_iff.mpr (.inl rfl)

theorem mem_preorder_of_child {node inner : Node} {entry : String × Node}
    (hentry : entry ∈ node.children) (hinner : inner ∈ entry.2.preorder) :
    inner ∈ node.preorder :=
  mem_preorder_iff.mpr (.inr ⟨entry, hentry, hinner⟩)

theorem mem_preorder_of_descend {node inner : Node} {keys : List String}
    (hdescend : node.descend keys = some inner) : inner ∈ node.preorder := by
  induction keys generalizing node with
  | nil =>
      cases hdescend
      exact mem_preorder_self _
  | cons key keys ih =>
      rw [descend] at hdescend
      obtain ⟨child, hchild, hdescend⟩ := Option.bind_eq_some_iff.mp hdescend
      exact mem_preorder_of_child (Keyed.mem_of_get? hchild) (ih hdescend)

theorem rerootChildren_eq (path : Path) (children : List (String × Node)) :
    rerootChildren path children =
      children.map fun entry => (entry.1, entry.2.reroot (path.child entry.1)) := by
  induction children with
  | nil => rfl
  | cons entry rest ih => rw [rerootChildren, List.map_cons, ih]

/-- Keys are names and paths are made of the names above, all the way down. -/
inductive PlacedAt : Path → Node → Prop where
  | intro {path : Path} {node : Node}
      (path_eq : node.path = path)
      (member_key : ∀ entry ∈ node.members, entry.1 = entry.2.name)
      (child_key : ∀ entry ∈ node.children, entry.1 = entry.2.name)
      (child_distinct : Keyed.Distinct node.children)
      (child_placed : ∀ entry ∈ node.children, PlacedAt (path.child entry.2.name) entry.2) :
      PlacedAt path node

namespace PlacedAt

variable {path : Path} {node : Node}

theorem path_eq (hplaced : node.PlacedAt path) : node.path = path := by
  cases hplaced
  assumption

theorem child_placed (hplaced : node.PlacedAt path) {child : Node}
    (hchild : child ∈ Keyed.values node.children) : child.PlacedAt (path.child child.name) := by
  obtain ⟨entry, hentry, rfl⟩ := List.mem_map.mp hchild
  cases hplaced with
  | intro _ _ _ _ hchildren => exact hchildren entry hentry

theorem distinct_children (hplaced : node.PlacedAt path) : Keyed.Distinct node.children := by
  cases hplaced
  assumption

theorem map_name_children (hplaced : node.PlacedAt path) :
    (Keyed.values node.children).map name = node.childNames := by
  cases hplaced with
  | intro _ _ hkey _ _ => exact Keyed.map_label_values hkey

theorem nodup_childNames (hplaced : node.PlacedAt path) :
    ((Keyed.values node.children).map name).Nodup := by
  rw [hplaced.map_name_children]
  exact hplaced.distinct_children

/-- Nothing changes when a placed node is put where it stands. -/
theorem reroot_eq (hplaced : node.PlacedAt path) : node.reroot path = node := by
  induction hplaced with
  | @intro path node hpath _ hkey _ _ ih =>
      obtain ⟨name, documentation, attributes, members, children, recorded⟩ := node
      obtain rfl : recorded = path := hpath
      have hchildren : rerootChildren recorded children = children := by
        rw [rerootChildren_eq]
        refine (List.map_congr_left fun entry hentry => ?_).trans (List.map_id _)
        rw [hkey entry hentry, ih entry hentry, ← hkey entry hentry]
        rfl
      rw [reroot, hchildren]

/-- Everything in a placed node is placed somewhere. -/
theorem of_mem (hplaced : node.PlacedAt path) {inner : Node} (hinner : inner ∈ node.preorder) :
    ∃ place, inner.PlacedAt place := by
  induction hplaced with
  | @intro path node hpath hmembers hkey hdistinct hchildren ih =>
      rcases mem_preorder_iff.mp hinner with rfl | ⟨entry, hentry, hinner⟩
      · exact ⟨path, .intro hpath hmembers hkey hdistinct hchildren⟩
      · exact ih entry hentry hinner

/-- Keys lead to everything in a placed node. -/
theorem exists_descend (hplaced : node.PlacedAt path) {inner : Node}
    (hinner : inner ∈ node.preorder) : ∃ keys, node.descend keys = some inner := by
  induction hplaced with
  | @intro path node _ _ _ hdistinct _ ih =>
      rcases mem_preorder_iff.mp hinner with rfl | ⟨entry, hentry, hinner⟩
      · exact ⟨[], rfl⟩
      · obtain ⟨keys, hkeys⟩ := ih entry hentry hinner
        refine ⟨entry.1 :: keys, ?_⟩
        rw [descend, child?, Keyed.get?_eq_some_of_mem hdistinct hentry, Option.bind_some, hkeys]

/-- What holds of a placed node at one level more than of its children holds of every
placed node at as many levels as it goes down. -/
@[elab_as_elim]
theorem induction_levels {motive : Nat → Path → Node → Prop}
    (step : ∀ levels path node, node.PlacedAt path →
      (∀ child ∈ Keyed.values node.children, motive levels (path.child child.name) child) →
      motive (levels + 1) path node)
    {levels : Nat} (hplaced : node.PlacedAt path)
    (hdeep : ∀ inner ∈ node.preorder, inner.depth < path.depth + levels) :
    motive levels path node := by
  induction levels generalizing path node with
  | zero =>
      have hself := hdeep node node.mem_preorder_self
      rw [depth, hplaced.path_eq] at hself
      exact absurd hself (Nat.lt_irrefl _)
  | succ levels ih =>
      refine step levels path node hplaced fun child hchild => ?_
      refine ih (hplaced.child_placed hchild) fun inner hinner => ?_
      -- The place of a child is one level further down.
      have hdepth : (path.child child.name).depth = path.depth + 1 := by
        simp [Path.depth, Path.child]
      obtain ⟨entry, hentry, rfl⟩ := List.mem_map.mp hchild
      have hlt := hdeep inner (mem_preorder_of_child hentry hinner)
      omega

end PlacedAt

end Node

namespace Forest

/-- Different roots have different names, everything stands where the names say,
and no map holds a key twice. -/
structure WellPlaced (forest : Forest) : Prop where
  roots_nodup : (forest.roots.map Node.name).Nodup
  placed : ∀ root ∈ forest.roots, root.PlacedAt (.single root.name)
  member_distinct : ∀ node ∈ forest.nodes, Keyed.Distinct node.members

theorem wellPlaced_empty : WellPlaced .empty where
  roots_nodup := List.nodup_nil
  placed := by simp [empty]
  member_distinct := by simp [empty, nodes]

/-- A forest of less than so many levels goes down no further below a root. -/
theorem depth_lt_of_root {forest : Forest} {levels : Nat}
    (hdeep : ∀ node ∈ forest.nodes, node.depth < levels) {root : Node} (hroot : root ∈ forest.roots)
    (path : Path) : ∀ inner ∈ root.preorder, inner.depth < path.depth + levels :=
  fun inner hinner => Nat.lt_of_lt_of_le
    (hdeep inner (List.mem_flatMap.mpr ⟨root, hroot, hinner⟩)) (Nat.le_add_left _ _)

/-- Placed roots stay as they are when a forest is made of them. -/
theorem ofRoots_of_placed {roots : List Node}
    (hplaced : ∀ root ∈ roots, root.PlacedAt (.single root.name)) : ofRoots roots = ⟨roots⟩ := by
  have hroots : roots.map Node.asRoot = roots :=
    (List.map_congr_left fun root hroot => (hplaced root hroot).reroot_eq).trans (List.map_id _)
  rw [ofRoots, hroots]

end Forest

end TreePass
