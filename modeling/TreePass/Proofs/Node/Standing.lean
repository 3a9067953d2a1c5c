import TreePass.Proofs.Node.Maps

/-!
# Nodes that stand at their keys

A node stands at a path when the path is recorded in it and every node below it
records the keys that lead there. Names play no part: a child may have another name
than its key. To put a node at a path makes it stand there, whatever was recorded in
it before. No two nodes that stand in different places record one path.
-/

namespace TreePass

theorem map_eq_self_iff {α : Type} {f : α → α} {items : List α} :
    items.map f = items ↔ ∀ item ∈ items, f item = item := by
  simpa using List.map_inj_left (l := items) (f := f) (g := id)

namespace Node

/-- Every path recorded in the node says where keys lead, from `path` on. -/
def StandsAt (path : Path) (node : Node) : Prop :=
  node.reroot path = node

theorem standsAt_iff {path : Path} {node : Node} :
    node.StandsAt path ↔
      node.path = path ∧ ∀ entry ∈ node.children, entry.2.StandsAt (path.child entry.1) := by
  obtain ⟨name, documentation, attributes, members, children, recorded⟩ := node
  have hchildren : rerootChildren path children = children ↔
      ∀ entry ∈ children, entry.2.StandsAt (path.child entry.1) := by
    rw [rerootChildren_eq, map_eq_self_iff]
    simp [Prod.ext_iff, StandsAt]
  simp only [StandsAt, reroot, mk.injEq, true_and] at hchildren ⊢
  rw [hchildren, and_comm, eq_comm]

theorem standsAt_reroot (path : Path) (node : Node) : (node.reroot path).StandsAt path :=
  reroot_reroot path path node

/-- The keys lead from the first node to the second one. -/
inductive Leads : Node → List String → Node → Prop where
  | here (node : Node) : Leads node [] node
  | child {node inner : Node} {entry : String × Node} {keys : List String}
      (child : entry ∈ node.children) (leads : Leads entry.2 keys inner) :
      Leads node (entry.1 :: keys) inner

theorem leads_of_descend {node inner : Node} {keys : List String}
    (hdescend : node.descend keys = some inner) : node.Leads keys inner := by
  induction keys generalizing node with
  | nil =>
      cases hdescend
      exact .here _
  | cons key keys ih =>
      rw [descend] at hdescend
      obtain ⟨child, hchild, hdescend⟩ := Option.bind_eq_some_iff.mp hdescend
      exact .child (Keyed.mem_of_get? hchild) (ih hdescend)

/-- Keys lead to everything in a node. -/
theorem mem_preorder_iff_leads {node inner : Node} :
    inner ∈ node.preorder ↔ ∃ keys, node.Leads keys inner := by
  constructor
  · intro hinner
    induction node using Node.induction with
    | step node ih =>
        rcases mem_preorder_iff.mp hinner with rfl | ⟨entry, hentry, hinner⟩
        · exact ⟨[], .here _⟩
        · obtain ⟨keys, hleads⟩ := ih entry hentry hinner
          exact ⟨entry.1 :: keys, .child hentry hleads⟩
  · rintro ⟨keys, hleads⟩
    induction hleads with
    | here node => exact node.mem_preorder_self
    | child hchild _ ih => exact mem_preorder_of_child hchild ih

theorem Leads.descend_eq {node inner : Node} {keys : List String} (hleads : node.Leads keys inner)
    (hnode : node.Distinct) : node.descend keys = some inner := by
  induction hleads with
  | here node => rfl
  | child hchild _ ih =>
      rw [descend, child?, Keyed.get?_eq_some_of_mem hnode.children hchild, Option.bind_some]
      exact ih (hnode.child hchild)

/-- Where keys lead, a standing node records them. -/
theorem StandsAt.path_of_leads {path : Path} {node inner : Node} {keys : List String}
    (hstands : node.StandsAt path) (hleads : node.Leads keys inner) :
    inner.path = path.extend keys := by
  induction hleads generalizing path with
  | here node => rw [(standsAt_iff.mp hstands).1, Path.extend_nil]
  | child hchild _ ih =>
      rw [← Path.extend_child]
      exact ih ((standsAt_iff.mp hstands).2 _ hchild)

/-- Everything in a standing node records a path that starts with the path of the node. -/
theorem StandsAt.startsWith {path : Path} {node inner : Node} (hstands : node.StandsAt path)
    (hinner : inner ∈ node.preorder) : inner.path.startsWith path = true := by
  obtain ⟨keys, hleads⟩ := mem_preorder_iff_leads.mp hinner
  rw [hstands.path_of_leads hleads]
  exact path.extend_startsWith keys

/-- Siblings are the nodes that stand at different keys in one place. What lies in
them has different paths if what lies in each of them has. -/
theorem nodup_paths_of_siblings {place : String → Path} {siblings : List (String × Node)}
    (hplace : ∀ (path : Path) (key other : String), path.startsWith (place key) = true →
      path.startsWith (place other) = true → key = other)
    (hkeys : Keyed.Distinct siblings)
    (hstands : ∀ sibling ∈ siblings, sibling.2.StandsAt (place sibling.1))
    (hnodup : ∀ sibling ∈ siblings, (sibling.2.preorder.map Node.path).Nodup) :
    (((Keyed.values siblings).flatMap preorder).map Node.path).Nodup := by
  rw [Keyed.values, List.flatMap_map, List.map_flatMap, List.nodup_flatMap]
  refine ⟨hnodup, ?_⟩
  refine (List.pairwise_map.mp hkeys).imp_of_mem fun {a b} ha hb hne => ?_
  intro path hpath hpath'
  obtain ⟨inner, hinner, rfl⟩ := List.mem_map.mp hpath
  obtain ⟨inner', hinner', heq⟩ := List.mem_map.mp hpath'
  have hbelow := (hstands b hb).startsWith hinner'
  rw [heq] at hbelow
  exact hne (hplace _ _ _ ((hstands a ha).startsWith hinner) hbelow)

/-- In a standing node no two nodes record one path. -/
theorem StandsAt.nodup_paths {path : Path} {node : Node} (hstands : node.StandsAt path)
    (hkeys : ∀ inner ∈ node.preorder, Keyed.Distinct inner.children) :
    (node.preorder.map Node.path).Nodup := by
  induction node using Node.induction generalizing path with
  | step node ih =>
      obtain ⟨hpath, hchildren⟩ := standsAt_iff.mp hstands
      rw [preorder_eq, List.map_cons, List.nodup_cons]
      constructor
      · intro hself
        obtain ⟨inner, hinner, heq⟩ := List.mem_map.mp hself
        obtain ⟨child, hchild, hinner⟩ := List.mem_flatMap.mp hinner
        obtain ⟨entry, hentry, rfl⟩ := List.mem_map.mp hchild
        have hbelow := (hchildren entry hentry).startsWith hinner
        rw [heq, hpath] at hbelow
        exact path.not_startsWith_child entry.1 hbelow
      · apply nodup_paths_of_siblings (fun _ _ _ => Path.child_name_eq)
          (hkeys node node.mem_preorder_self) hchildren
        intro entry hentry
        exact ih entry hentry (hchildren entry hentry) fun inner hinner =>
          hkeys inner (mem_preorder_of_child hentry hinner)

theorem PlacedAt.standsAt {path : Path} {node : Node} (hplaced : node.PlacedAt path) :
    node.StandsAt path :=
  hplaced.reroot_eq

end Node

/-- Roots that stand at different names have no path in common. -/
theorem Forest.nodup_paths_of_standing {forest : Forest} (hnames : (forest.roots.map Node.name).Nodup)
    (hstands : ∀ root ∈ forest.roots, root.StandsAt (.single root.name))
    (hkeys : ∀ node ∈ forest.nodes, Keyed.Distinct node.children) :
    (forest.nodes.map Node.path).Nodup := by
  rw [nodes, ← Keyed.values_map_label Node.name forest.roots]
  apply Node.nodup_paths_of_siblings (fun _ _ _ => Path.single_name_eq)
  · rwa [Keyed.Distinct, Keyed.keys_map_label]
  · simpa using hstands
  · simp only [List.forall_mem_map]
    intro root hroot
    exact (hstands root hroot).nodup_paths fun inner hinner =>
      hkeys inner (List.mem_flatMap.mpr ⟨root, hroot, hinner⟩)

/-- In a forest of placed nodes no two nodes record one path. -/
theorem Forest.nodup_paths {forest : Forest}
    (hnames : (forest.roots.map Node.name).Nodup)
    (hplaced : ∀ root ∈ forest.roots, root.PlacedAt (.single root.name)) :
    (forest.nodes.map Node.path).Nodup := by
  apply nodup_paths_of_standing hnames fun root hroot => (hplaced root hroot).standsAt
  intro node hnode
  obtain ⟨root, hroot, hinner⟩ := List.mem_flatMap.mp hnode
  obtain ⟨place, hinner⟩ := (hplaced root hroot).of_mem hinner
  exact hinner.distinct_children

end TreePass
