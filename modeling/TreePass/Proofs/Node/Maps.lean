import TreePass.Forest.Basic
import TreePass.Proofs.Keyed
import TreePass.Proofs.Placement

/-!
# Maps at every depth

The maps of a node are lists of entries, and nothing in their type keeps a key
from occurring twice. A node is distinct when none of its maps, at any depth,
holds a key twice; it is keyed by name when every child in it is under its own
name. Nodes are taken apart by an induction that goes from the children to the
node.
-/

namespace TreePass

namespace Node

/-- What holds of a node as soon as it holds of its children holds of every node. -/
@[elab_as_elim]
theorem induction {motive : Node → Prop}
    (step : ∀ node : Node, (∀ entry ∈ node.children, motive entry.2) → motive node)
    (node : Node) : motive node :=
  step node fun entry _hentry => induction step entry.2
termination_by sizeOf node
decreasing_by
  obtain ⟨name, documentation, attributes, members, children, path⟩ := node
  obtain ⟨key, child⟩ := entry
  have hlt := List.sizeOf_lt_of_mem _hentry
  simp only [Node.mk.sizeOf_spec, Prod.mk.sizeOf_spec] at hlt ⊢
  omega

theorem mem_preorder_trans {node inner deep : Node} (hinner : inner ∈ node.preorder)
    (hdeep : deep ∈ inner.preorder) : deep ∈ node.preorder := by
  induction node using Node.induction with
  | step node ih =>
      rcases mem_preorder_iff.mp hinner with rfl | ⟨entry, hentry, hinner⟩
      · exact hdeep
      · exact mem_preorder_of_child hentry (ih entry hentry hinner)

theorem reroot_children (path : Path) (node : Node) : (node.reroot path).children =
    node.children.map fun entry => (entry.1, entry.2.reroot (path.child entry.1)) := by
  cases node
  rw [reroot, rerootChildren_eq]

theorem reroot_members (path : Path) (node : Node) : (node.reroot path).members = node.members := by
  cases node
  rw [reroot]

theorem path_reroot (path : Path) (node : Node) : (node.reroot path).path = path := by
  cases node
  rw [reroot]

theorem name_asRoot (node : Node) : node.asRoot.name = node.name := by
  cases node
  rw [asRoot, reroot]

/-- What was recorded before plays no part when a node is placed. -/
theorem reroot_reroot (before after : Path) (node : Node) :
    (node.reroot before).reroot after = node.reroot after := by
  induction node using Node.induction generalizing before after with
  | step node ih =>
      obtain ⟨name, documentation, attributes, members, children, recorded⟩ := node
      simp only [reroot, rerootChildren_eq, List.map_map]
      congr 1
      exact List.map_congr_left fun entry hentry => congrArg _ (ih entry hentry _ _)

/-- No map in the node holds a key twice. -/
def Distinct (node : Node) : Prop :=
  ∀ inner ∈ node.preorder, Keyed.Distinct inner.members ∧ Keyed.Distinct inner.children

instance (node : Node) : Decidable node.Distinct :=
  inferInstanceAs (Decidable (∀ inner ∈ node.preorder,
    (Keyed.keys inner.members).Nodup ∧ (Keyed.keys inner.children).Nodup))

theorem distinct_iff {node : Node} :
    node.Distinct ↔ (Keyed.Distinct node.members ∧ Keyed.Distinct node.children) ∧
      ∀ entry ∈ node.children, entry.2.Distinct := by
  constructor
  · intro hnode
    refine ⟨hnode node node.mem_preorder_self, fun entry hentry inner hinner => ?_⟩
    exact hnode inner (mem_preorder_of_child hentry hinner)
  · rintro ⟨hself, hchildren⟩ inner hinner
    rcases mem_preorder_iff.mp hinner with rfl | ⟨entry, hentry, hinner⟩
    · exact hself
    · exact hchildren entry hentry inner hinner

namespace Distinct

variable {node : Node}

theorem members (hnode : node.Distinct) : Keyed.Distinct node.members :=
  (distinct_iff.mp hnode).1.1

theorem children (hnode : node.Distinct) : Keyed.Distinct node.children :=
  (distinct_iff.mp hnode).1.2

theorem child (hnode : node.Distinct) {entry : String × Node} (hentry : entry ∈ node.children) :
    entry.2.Distinct :=
  (distinct_iff.mp hnode).2 entry hentry

theorem of_perm {other : Node} (hnode : node.Distinct)
    (hmembers : node.members.Perm other.members)
    (hchildren : node.children.Perm other.children) : other.Distinct := by
  refine distinct_iff.mpr ⟨⟨?_, ?_⟩, fun entry hentry => ?_⟩
  · exact (hmembers.map Prod.fst).nodup_iff.mp hnode.members
  · exact (hchildren.map Prod.fst).nodup_iff.mp hnode.children
  · exact hnode.child (hchildren.mem_iff.mpr hentry)

theorem reroot (hnode : node.Distinct) (path : Path) : (node.reroot path).Distinct := by
  induction node using Node.induction generalizing path with
  | step node ih =>
      refine distinct_iff.mpr ⟨⟨?_, ?_⟩, fun entry hentry => ?_⟩
      · rw [reroot_members]
        exact hnode.members
      · rw [reroot_children]
        exact Keyed.distinct_map_value _ hnode.children
      · rw [reroot_children] at hentry
        obtain ⟨child, hchild, rfl⟩ := List.mem_map.mp hentry
        exact ih child hchild (hnode.child hchild) _

end Distinct

/-- Every child in the node is kept under its own name. -/
def KeyedByName (node : Node) : Prop :=
  ∀ inner ∈ node.preorder, ∀ entry ∈ inner.children, entry.1 = entry.2.name

instance (node : Node) : Decidable node.KeyedByName :=
  inferInstanceAs (Decidable (∀ inner ∈ node.preorder, ∀ entry ∈ inner.children,
    entry.1 = entry.2.name))

namespace KeyedByName

variable {node : Node}

theorem key_eq (hnode : node.KeyedByName) {entry : String × Node} (hentry : entry ∈ node.children) :
    entry.1 = entry.2.name :=
  hnode node node.mem_preorder_self entry hentry

theorem child (hnode : node.KeyedByName) {entry : String × Node}
    (hentry : entry ∈ node.children) : entry.2.KeyedByName :=
  fun inner hinner => hnode inner (mem_preorder_of_child hentry hinner)

end KeyedByName

end Node

/-- No map in the forest holds a key twice. -/
def Forest.Distinct (forest : Forest) : Prop :=
  ∀ root ∈ forest.roots, root.Distinct

instance (forest : Forest) : Decidable forest.Distinct :=
  inferInstanceAs (Decidable (∀ root ∈ forest.roots, root.Distinct))

end TreePass
