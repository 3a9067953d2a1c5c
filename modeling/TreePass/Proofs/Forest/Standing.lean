import TreePass.Proofs.Node.Standing
import TreePass.Proofs.Node.Twin

/-!
# Forests whose nodes stand at their keys

In such a forest every root stands at its name. A forest that is made of roots is of
this kind, and it stays so when roots are added or taken away. It is well placed if,
besides, no two roots have one name and keys are names everywhere.
-/

namespace TreePass

/-- A node is placed where it stands if keys are names in it. -/
theorem Node.placedAt_iff {path : Path} {node : Node} :
    node.PlacedAt path ↔ node.StandsAt path ∧ ∀ inner ∈ node.preorder,
      (∀ entry ∈ inner.members, entry.1 = entry.2.name) ∧
        (∀ entry ∈ inner.children, entry.1 = entry.2.name) ∧ Keyed.Distinct inner.children := by
  constructor
  · intro hplaced
    refine ⟨hplaced.standsAt, fun inner hinner => ?_⟩
    obtain ⟨place, -, hmember, hchild, hdistinct, -⟩ := hplaced.of_mem hinner
    exact ⟨hmember, hchild, hdistinct⟩
  · rintro ⟨hstands, hkeys⟩
    induction node using Node.induction generalizing path with
    | step node ih =>
        obtain ⟨hpath, hchildren⟩ := Node.standsAt_iff.mp hstands
        obtain ⟨hmember, hchild, hdistinct⟩ := hkeys node node.mem_preorder_self
        refine .intro hpath hmember hchild hdistinct fun entry hentry => ?_
        rw [← hchild entry hentry]
        exact ih entry hentry (hchildren entry hentry) fun inner hinner =>
          hkeys inner (Node.mem_preorder_of_child hentry hinner)

namespace Forest

theorem placed_iff {forest : Forest} :
    forest.Placed ↔ ∀ root ∈ forest.roots, root.StandsAt (.single root.name) := by
  obtain ⟨roots⟩ := forest
  simp only [Placed, ofRoots, mk.injEq]
  exact map_eq_self_iff

theorem placed_ofRoots (roots : List Node) : (ofRoots roots).Placed := by
  refine placed_iff.mpr fun root hroot => ?_
  obtain ⟨source, -, rfl⟩ := List.mem_map.mp hroot
  rw [source.name_asRoot]
  exact Node.standsAt_reroot _ source

/-! ## Looking up roots -/

theorem name_of_root? {forest : Forest} {name : String} {root : Node}
    (hroot : forest.root? name = some root) : root.name = name := by
  simpa using List.find?_some hroot

theorem mem_of_root? {forest : Forest} {name : String} {root : Node}
    (hroot : forest.root? name = some root) : root ∈ forest.roots :=
  List.mem_of_find?_eq_some hroot

theorem exists_root? {forest : Forest} {name : String}
    (hname : name ∈ forest.roots.map Node.name) : ∃ root, forest.root? name = some root := by
  obtain ⟨root, hroot, rfl⟩ := List.mem_map.mp hname
  apply Option.isSome_iff_exists.mp
  rw [root?, List.find?_isSome]
  exact ⟨root, hroot, beq_self_eq_true root.name⟩

/-- Where roots have different names, each of them is found under its own. -/
theorem root?_of_mem {forest : Forest} (hnames : (forest.roots.map Node.name).Nodup) {root : Node}
    (hroot : root ∈ forest.roots) : forest.root? root.name = some root := by
  obtain ⟨found, hfound⟩ := exists_root? (List.mem_map_of_mem hroot)
  rw [hfound,
    List.inj_on_of_nodup_map hnames (mem_of_root? hfound) hroot (name_of_root? hfound)]

/-- A path is found in a forest at a node that records it. -/
theorem Placed.path_of_find? {forest : Forest} (hforest : forest.Placed) {path : Path}
    {node : Node} (hfound : forest.find? path = some node) : node.path = path := by
  obtain ⟨root, hroot, hdescend⟩ := Option.bind_eq_some_iff.mp hfound
  have hstands := placed_iff.mp hforest root (mem_of_root? hroot)
  rw [hstands.path_of_leads (Node.leads_of_descend hdescend), name_of_root? hroot]
  rfl

/-! ## Adding roots and taking them away -/

theorem mem_replaceRoot {root other : Node} {roots : List Node}
    (hmem : other ∈ replaceRoot root roots) : other = root ∨ other ∈ roots := by
  induction roots with
  | nil => simpa [replaceRoot] using hmem
  | cons first rest ih =>
      rw [replaceRoot] at hmem
      split at hmem
      next =>
        rcases List.mem_cons.mp hmem with heq | hrest
        · exact .inl heq
        · exact .inr (List.mem_cons_of_mem _ hrest)
      next =>
        rcases List.mem_cons.mp hmem with heq | hrest
        · exact .inr (heq ▸ List.mem_cons_self)
        · exact (ih hrest).imp_right (List.mem_cons_of_mem _)

namespace Placed

variable {forest : Forest}

theorem withRoot (hforest : forest.Placed) (root : Node) : (forest.withRoot root).Placed := by
  refine placed_iff.mpr fun other hother => ?_
  rcases mem_replaceRoot hother with rfl | hold
  · have hself := placed_iff.mp (placed_ofRoots [root])
    exact hself _ List.mem_cons_self
  · exact placed_iff.mp hforest other hold

theorem withoutRoot (hforest : forest.Placed) (name : String) :
    (forest.withoutRoot name).Placed :=
  placed_iff.mpr fun root hroot => placed_iff.mp hforest root (List.mem_filter.mp hroot).1

end Placed

/-! ## Well placed forests -/

/-- A forest is well placed if every node in it stands at its keys, keys are names and do
not occur twice, and no two roots have one name. -/
theorem wellPlaced_iff {forest : Forest} :
    forest.WellPlaced ↔ forest.Placed ∧ forest.Distinct ∧ (forest.roots.map Node.name).Nodup ∧
      ∀ node ∈ forest.nodes, (∀ entry ∈ node.members, entry.1 = entry.2.name) ∧
        ∀ entry ∈ node.children, entry.1 = entry.2.name := by
  have hmem {root inner : Node} (hroot : root ∈ forest.roots) (hinner : inner ∈ root.preorder) :
      inner ∈ forest.nodes := List.mem_flatMap.mpr ⟨root, hroot, hinner⟩
  constructor
  · rintro ⟨hnames, hplaced, hmembers⟩
    refine ⟨placed_iff.mpr fun root hroot => (hplaced root hroot).standsAt,
      fun root hroot inner hinner => ?_, hnames, fun node hnode => ?_⟩
    · obtain ⟨-, hkeys⟩ := Node.placedAt_iff.mp (hplaced root hroot)
      exact ⟨hmembers inner (hmem hroot hinner), (hkeys inner hinner).2.2⟩
    · obtain ⟨root, hroot, hinner⟩ := List.mem_flatMap.mp hnode
      obtain ⟨-, hkeys⟩ := Node.placedAt_iff.mp (hplaced root hroot)
      exact ⟨(hkeys node hinner).1, (hkeys node hinner).2.1⟩
  · rintro ⟨hplaced, hdistinct, hnames, hkeys⟩
    refine ⟨hnames, fun root hroot => ?_, fun node hnode => ?_⟩
    · refine Node.placedAt_iff.mpr ⟨placed_iff.mp hplaced root hroot, fun inner hinner => ?_⟩
      obtain ⟨hmember, hchild⟩ := hkeys inner (hmem hroot hinner)
      exact ⟨hmember, hchild, (hdistinct root hroot inner hinner).2⟩
    · obtain ⟨root, hroot, hinner⟩ := List.mem_flatMap.mp hnode
      exact (hdistinct root hroot node hinner).1

/-! ## Replacing roots -/

/-- To add a root once more changes nothing. -/
theorem replaceRoot_replaceRoot (root : Node) (roots : List Node) :
    replaceRoot root (replaceRoot root roots) = replaceRoot root roots := by
  induction roots with
  | nil => simp [replaceRoot]
  | cons first rest ih =>
      rw [replaceRoot]
      split
      next => rw [replaceRoot, if_pos rfl]
      next hname => rw [replaceRoot, if_neg hname, ih]

theorem withRoot_withRoot (forest : Forest) (root : Node) :
    (forest.withRoot root).withRoot root = forest.withRoot root :=
  congrArg mk (replaceRoot_replaceRoot root.asRoot forest.roots)

theorem withoutRoot_withoutRoot (forest : Forest) (name : String) :
    (forest.withoutRoot name).withoutRoot name = forest.withoutRoot name := by
  simp [withoutRoot, List.filter_filter]

/-- Roots are replaced as entries of a map are that has them under their names. -/
theorem map_label_replaceRoot (root : Node) (roots : List Node) :
    (replaceRoot root roots).map (fun root => (root.name, root)) =
      Keyed.put root.name root (roots.map fun root => (root.name, root)) := by
  induction roots with
  | nil => rfl
  | cons first rest ih =>
      rw [replaceRoot, List.map_cons, Keyed.put]
      split
      next hname => rw [List.map_cons, hname]
      next => rw [List.map_cons, ih]

theorem nodup_replaceRoot (root : Node) {roots : List Node}
    (hnames : (roots.map Node.name).Nodup) :
    ((replaceRoot root roots).map Node.name).Nodup := by
  have hdistinct : Keyed.Distinct (roots.map fun root => (root.name, root)) := by
    rwa [Keyed.Distinct, Keyed.keys_map_label]
  have hreplaced : Keyed.Distinct
      (Keyed.put root.name root (roots.map fun root => (root.name, root))) :=
    Keyed.distinct_put hdistinct
  rwa [← map_label_replaceRoot, Keyed.Distinct, Keyed.keys_map_label] at hreplaced

namespace WellPlaced

variable {forest : Forest}

theorem distinct (hforest : forest.WellPlaced) : forest.Distinct :=
  (wellPlaced_iff.mp hforest).2.1

theorem withRoot (hforest : forest.WellPlaced) {root : Node}
    (hroot : (ofRoots [root]).WellPlaced) : (forest.withRoot root).WellPlaced where
  roots_nodup := nodup_replaceRoot root.asRoot hforest.roots_nodup
  placed := by
    intro other hother
    rcases mem_replaceRoot hother with rfl | hold
    · exact hroot.placed _ List.mem_cons_self
    · exact hforest.placed other hold
  member_distinct := by
    intro node hnode
    obtain ⟨other, hother, hnode⟩ := List.mem_flatMap.mp hnode
    rcases mem_replaceRoot hother with rfl | hold
    · exact hroot.member_distinct node (List.mem_flatMap.mpr ⟨_, List.mem_cons_self, hnode⟩)
    · exact hforest.member_distinct node (List.mem_flatMap.mpr ⟨other, hold, hnode⟩)

theorem withoutRoot (hforest : forest.WellPlaced) (name : String) :
    (forest.withoutRoot name).WellPlaced where
  roots_nodup := hforest.roots_nodup.sublist (List.filter_sublist.map _)
  placed root hroot := hforest.placed root (List.mem_filter.mp hroot).1
  member_distinct := by
    intro node hnode
    obtain ⟨root, hroot, hnode⟩ := List.mem_flatMap.mp hnode
    exact hforest.member_distinct node
      (List.mem_flatMap.mpr ⟨root, (List.mem_filter.mp hroot).1, hnode⟩)

end WellPlaced

end Forest

end TreePass
