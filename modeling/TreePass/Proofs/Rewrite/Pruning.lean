import TreePass.Proofs.Rewrite.Identity
import TreePass.Proofs.Rewrite.WellPlaced

/-!
# Removing nodes

A guarded removal prunes a forest: it drops the nodes that the guard holds of, with
everything below them. The guard is asked about every node that no removed node is
above, and about no other. What is left are the nodes that the guard holds neither of
nor of any node above, each as it was but for the children that it lost.
-/

namespace TreePass

namespace Node

variable {doomed : Node → Bool}

mutual

/-- The node without the doomed nodes below it. -/
def pruned (doomed : Node → Bool) : Node → Node
  | ⟨name, documentation, attributes, members, children, path⟩ =>
      ⟨name, documentation, attributes, members, prunedChildren doomed children, path⟩

/-- The children that are not doomed, each of them pruned. -/
def prunedChildren (doomed : Node → Bool) : List (String × Node) → List (String × Node)
  | [] => []
  | (key, child) :: rest =>
      if doomed child then prunedChildren doomed rest
      else (key, child.pruned doomed) :: prunedChildren doomed rest

end

/-- What is left of a node: nothing of a doomed one. -/
def remnant (doomed : Node → Bool) (node : Node) : Option Node :=
  if doomed node then none else some (node.pruned doomed)

@[simp] theorem pruned_name (node : Node) : (node.pruned doomed).name = node.name := by
  cases node
  rfl

theorem values_prunedChildren (children : List (String × Node)) :
    Keyed.values (prunedChildren doomed children) =
      (Keyed.values children).filterMap (remnant doomed) := by
  induction children with
  | nil => rfl
  | cons entry rest ih =>
      rw [prunedChildren, Keyed.values_cons, List.filterMap_cons, remnant]
      split <;> simp [ih]

theorem pruned_eq (node : Node) : node.pruned doomed =
    { node with children := prunedChildren doomed node.children } := by
  cases node
  rfl

theorem prunedChildren_key {children : List (String × Node)}
    (hkey : ∀ entry ∈ children, entry.1 = entry.2.name) :
    ∀ entry ∈ prunedChildren doomed children, entry.1 = entry.2.name := by
  induction children with
  | nil => simp [prunedChildren]
  | cons entry rest ih =>
      obtain ⟨hentry, hrest⟩ := List.forall_mem_cons.mp hkey
      rw [prunedChildren]
      split
      next => exact ih hrest
      next => exact List.forall_mem_cons.mpr ⟨by simpa using hentry, ih hrest⟩

/-- The names of what is left of siblings are among their names. -/
theorem remnant_names_sublist (nodes : List Node) :
    ((nodes.filterMap (remnant doomed)).map name).Sublist (nodes.map name) := by
  induction nodes with
  | nil => exact .slnil
  | cons node rest ih =>
      cases hdoomed : doomed node with
      | true => simpa [remnant, hdoomed] using ih.cons node.name
      | false => simpa [remnant, hdoomed] using ih

/-! ## Nodes below doomed ones -/

/-- The node by itself, without its children. -/
def bare (node : Node) : Node := { node with children := [] }

/-- Whether a doomed node is above the node: its path goes on from the path of that one. -/
def shaded (doomed : Node → Bool) (nodes : List Node) (node : Node) : Bool :=
  nodes.any fun above =>
    doomed above && node.path.startsWith above.path && above.path != node.path

/-- The nodes that no doomed one is above. -/
def unshaded (doomed : Node → Bool) (nodes : List Node) : List Node :=
  nodes.filter fun node => !shaded doomed nodes node

theorem shaded_iff {nodes : List Node} {node : Node} : shaded doomed nodes node = true ↔
    ∃ above ∈ nodes, doomed above = true ∧ node.path.startsWith above.path = true ∧
      above.path ≠ node.path := by
  simp [shaded, and_assoc]

/-- Nodes in other siblings are above none in the one. -/
theorem unshaded_siblings {place : String → Path} {nodes : List Node}
    (hplace : ∀ (path : Path) (name other : String), path.startsWith (place name) = true →
      path.startsWith (place other) = true → name = other)
    (hnames : (nodes.map name).Nodup)
    (hplaced : ∀ node ∈ nodes, node.PlacedAt (place node.name)) :
    unshaded doomed (nodes.flatMap preorder) =
      nodes.flatMap fun node => unshaded doomed node.preorder := by
  rw [unshaded, List.filter_flatMap]
  refine List.flatMap_congr fun node hnode => List.filter_congr fun inner hinner => ?_
  refine congrArg _ (Bool.eq_iff_iff.mpr ?_)
  rw [shaded_iff, shaded_iff]
  constructor
  · rintro ⟨above, habove, hdoomed, hstarts, hne⟩
    obtain ⟨other, hother, habove⟩ := List.mem_flatMap.mp habove
    have hname : node.name = other.name :=
      hplace _ _ _ ((hplaced node hnode).standsAt.startsWith hinner)
        (Path.startsWith_trans hstarts ((hplaced other hother).standsAt.startsWith habove))
    obtain rfl := List.inj_on_of_nodup_map hnames hnode hother hname
    exact ⟨above, habove, hdoomed, hstarts, hne⟩
  · rintro ⟨above, habove, hrest⟩
    exact ⟨above, List.mem_flatMap.mpr ⟨node, hnode, habove⟩, hrest⟩

namespace PlacedAt

variable {path : Path} {node : Node}

theorem unshaded_children (hplaced : node.PlacedAt path) :
    unshaded doomed ((Keyed.values node.children).flatMap preorder) =
      (Keyed.values node.children).flatMap fun child => unshaded doomed child.preorder :=
  unshaded_siblings (fun _ _ _ => Path.child_name_eq) hplaced.nodup_childNames
    fun _ => hplaced.child_placed

/-- No doomed node in a placed one is above it; if it is doomed itself, it is above all others. -/
theorem unshaded_preorder (hplaced : node.PlacedAt path) :
    unshaded doomed node.preorder = node :: if doomed node then [] else
      (Keyed.values node.children).flatMap fun child => unshaded doomed child.preorder := by
  have hbelow : ∀ inner ∈ (Keyed.values node.children).flatMap preorder,
      inner.path.startsWith node.path = true ∧ ¬ node.path.startsWith inner.path = true := by
    intro inner hinner
    obtain ⟨child, hchild, hinner⟩ := List.mem_flatMap.mp hinner
    have hstarts := (hplaced.child_placed hchild).standsAt.startsWith hinner
    rw [hplaced.path_eq]
    exact ⟨Path.startsWith_trans hstarts (path.child_startsWith _),
      fun habove => path.not_startsWith_child _ (Path.startsWith_trans habove hstarts)⟩
  have hself : shaded doomed node.preorder node = false := by
    rw [← Bool.not_eq_true, shaded_iff]
    rintro ⟨above, habove, -, hstarts, hne⟩
    rw [preorder_eq] at habove
    rcases List.mem_cons.mp habove with rfl | hinner
    · exact hne rfl
    · exact (hbelow above hinner).2 hstarts
  have hinner : ∀ inner ∈ (Keyed.values node.children).flatMap preorder,
      shaded doomed node.preorder inner =
        (doomed node || shaded doomed ((Keyed.values node.children).flatMap preorder) inner) := by
    intro inner hinner
    obtain ⟨hstarts, hnot⟩ := hbelow inner hinner
    have hne : node.path ≠ inner.path := fun heq => hnot (heq ▸ node.path.startsWith_refl)
    rw [node.preorder_eq, shaded, List.any_cons, hstarts, bne_iff_ne.mpr hne, Bool.and_true,
      Bool.and_true]
    rfl
  rw [unshaded]
  nth_rewrite 2 [node.preorder_eq]
  rw [List.filter_cons, hself, Bool.not_false, if_pos rfl, List.filter_congr fun inner hmem =>
    congrArg Bool.not (hinner inner hmem)]
  cases hdoomed : doomed node with
  | true => simp
  | false =>
      simp only [Bool.false_or, Bool.false_eq_true, if_false]
      rw [← hplaced.unshaded_children]
      rfl

/-- A placed node is pruned by putting it together from what is left of its children. -/
theorem pruned_eq_assemble (hplaced : node.PlacedAt path) : node.pruned doomed =
    Walk.assemble node path (Keyed.values node.members)
      ((Keyed.values node.children).filterMap (remnant doomed)) := by
  cases hplaced with
  | intro hpath hmember hkey _ _ =>
      rw [← values_prunedChildren, Walk.assemble, Keyed.map_values_label hmember,
        Keyed.map_values_label (prunedChildren_key hkey), ← hpath]
      exact pruned_eq node

/-- What is left of a placed node are the nodes in it that are not doomed and that no
doomed one is above. -/
theorem bare_remnant (hplaced : node.PlacedAt path) :
    ((remnant doomed node).toList.flatMap preorder).map bare =
      ((unshaded doomed node.preorder).filter fun inner => !doomed inner).map bare := by
  induction hplaced with
  | @intro path node hpath hmember hkey hdistinct hchildren ih =>
      rw [PlacedAt.unshaded_preorder (.intro hpath hmember hkey hdistinct hchildren), remnant]
      cases hdoomed : doomed node with
      | true => simp [hdoomed]
      | false =>
          have hbare : (node.pruned doomed).bare = node.bare := by
            rw [pruned_eq]
            rfl
          have hvalues : Keyed.values (node.pruned doomed).children =
              (Keyed.values node.children).filterMap (remnant doomed) := by
            rw [pruned_eq, values_prunedChildren]
          simp only [Bool.false_eq_true, if_false, Option.toList_some, List.flatMap_singleton]
          rw [preorder_eq, hvalues, List.map_cons, hbare, List.filter_cons, hdoomed,
            Bool.not_false, if_pos rfl, List.map_cons, List.filterMap_eq_flatMap_toList,
            List.flatMap_assoc, List.map_flatMap, List.filter_flatMap, List.map_flatMap]
          refine congrArg _ (List.flatMap_congr fun child hchild => ?_)
          obtain ⟨entry, hentry, rfl⟩ := List.mem_map.mp hchild
          exact ih entry hentry

/-- Where the doomed nodes are others only below doomed ones, the same is left. -/
theorem remnant_congr {doomed' : Node → Bool} (hplaced : node.PlacedAt path)
    (hsame : ∀ inner ∈ unshaded doomed node.preorder, doomed' inner = doomed inner) :
    remnant doomed' node = remnant doomed node ∧
      unshaded doomed' node.preorder = unshaded doomed node.preorder := by
  induction hplaced with
  | @intro path node hpath hmember hkey hdistinct hchildren ih =>
      have hplaced : node.PlacedAt path := .intro hpath hmember hkey hdistinct hchildren
      rw [hplaced.unshaded_preorder] at hsame ⊢
      obtain ⟨hself, hbelow⟩ := List.forall_mem_cons.mp hsame
      rw [hplaced.unshaded_preorder, remnant, remnant, hself]
      cases hdoomed : doomed node with
      | true => simp
      | false =>
          simp only [hdoomed, Bool.false_eq_true, if_false] at hbelow ⊢
          have hsame (child : Node) (hchild : child ∈ Keyed.values node.children) :
              remnant doomed' child = remnant doomed child ∧
                unshaded doomed' child.preorder = unshaded doomed child.preorder := by
            obtain ⟨entry, hentry, rfl⟩ := List.mem_map.mp hchild
            exact ih entry hentry fun inner hinner =>
              hbelow inner (List.mem_flatMap.mpr ⟨entry.2, hchild, hinner⟩)
          refine ⟨?_, ?_⟩
          · rw [hplaced.pruned_eq_assemble, hplaced.pruned_eq_assemble,
              List.filterMap_congr fun child hchild => (hsame child hchild).1]
          · rw [List.flatMap_congr fun child hchild => (hsame child hchild).2]

end PlacedAt

end Node

namespace Forest

variable {doomed : Node → Bool} {forest : Forest}

/-- The forest without its doomed nodes and what is below them. -/
def pruned (doomed : Node → Bool) (forest : Forest) : Forest :=
  ⟨forest.roots.filterMap (Node.remnant doomed)⟩

namespace WellPlaced

theorem unshaded_nodes (hforest : forest.WellPlaced) : Node.unshaded doomed forest.nodes =
    forest.roots.flatMap fun root => Node.unshaded doomed root.preorder :=
  Node.unshaded_siblings (fun _ _ _ => Path.single_name_eq) hforest.roots_nodup hforest.placed

theorem bare_pruned (hforest : forest.WellPlaced) :
    (forest.pruned doomed).nodes.map Node.bare =
      ((Node.unshaded doomed forest.nodes).filter fun node => !doomed node).map Node.bare := by
  rw [hforest.unshaded_nodes, nodes, pruned, List.filterMap_eq_flatMap_toList, List.flatMap_assoc,
    List.map_flatMap, List.filter_flatMap, List.map_flatMap]
  exact List.flatMap_congr fun root hroot => (hforest.placed root hroot).bare_remnant

/-- Nodes that are left have the members that they had. -/
theorem memberClash_pruned (hforest : forest.WellPlaced) :
    (forest.pruned doomed).memberClash = none := by
  refine memberClash_eq_none_iff.mpr fun node hnode => ?_
  have hbare : node.bare ∈ (forest.pruned doomed).nodes.map Node.bare := List.mem_map_of_mem hnode
  rw [hforest.bare_pruned] at hbare
  obtain ⟨before, hbefore, heq⟩ := List.mem_map.mp hbare
  have hmembers : before.members = node.members := by simpa [Node.bare] using congrArg Node.members heq
  rw [← hmembers]
  exact memberClash_eq_none_iff.mp hforest.memberClash_eq_none before
    (List.mem_filter.mp (List.mem_filter.mp hbefore).1).1

/-- Only what the nodes are that no doomed one is above decides what is left. -/
theorem pruned_congr {doomed' : Node → Bool} (hforest : forest.WellPlaced)
    (hsame : ∀ node ∈ Node.unshaded doomed forest.nodes, doomed' node = doomed node) :
    forest.pruned doomed' = forest.pruned doomed ∧
      Node.unshaded doomed' forest.nodes = Node.unshaded doomed forest.nodes := by
  have heach (root : Node) (hroot : root ∈ forest.roots) :=
    (hforest.placed root hroot).remnant_congr fun inner hinner =>
      hsame inner (hforest.unshaded_nodes ▸ List.mem_flatMap.mpr ⟨root, hroot, hinner⟩)
  refine ⟨?_, ?_⟩
  · rw [pruned, pruned, List.filterMap_congr fun root hroot => (heach root hroot).1]
  · rw [hforest.unshaded_nodes, hforest.unshaded_nodes,
      List.flatMap_congr fun root hroot => (heach root hroot).2]

end WellPlaced

end Forest

/-! ## Walks that remove nodes -/

namespace Walk

variable {step : PureStep} {guard : Guard} {tree : Forest}

/-- What a removal counts, where it is asked about the nodes `visited`. -/
def removalTally (doomed : Node → Bool) (visited : List Node) : Tally where
  nodesVisited := visited.length
  nodesRemoved := visited.countP doomed

theorem total_removalTally {doomed : Node → Bool} {parts : Node → List Node} (nodes : List Node) :
    Tally.total (nodes.map fun node => removalTally doomed (parts node)) =
      removalTally doomed (nodes.flatMap parts) :=
  Tally.total_flatMap rfl (fun _ _ => by simp [removalTally, Tally.merge]) parts nodes

section Removal

variable (hguard : step.guard = some guard) (hrule : step.rule = .removeNode)

include hguard hrule

theorem onNodeAll_removal (node : Node) :
    Rule.onNodeAll tree node (rulesFor [step] tree (.node node)) =
      .ok (if guard.matchesNode tree node then none else some node) := by
  have hadmits : step.admits tree (.node node) = guard.matchesNode tree node := by
    rw [Step.admits, hguard]
    rfl
  rw [rulesFor, List.filter_singleton, hadmits]
  cases guard.matchesNode tree node with
  | true => simp [hrule, Rule.onNodeAll, Rule.onNode, pure, Except.pure]
  | false => rfl

omit hguard in
theorem onMemberAll_removal (node : Node) (member : Member) (subject : Subject) :
    Rule.onMemberAll tree node member (rulesFor [step] tree subject) = .ok (some member) := by
  rw [rulesFor, List.filter_singleton]
  cases step.admits tree subject with
  | true => simp [hrule, Rule.onMemberAll, Rule.onMember, pure, Except.pure]
  | false => rfl

/-- A guarded removal leaves of a placed node what is left when it is pruned. -/
theorem visit_removal {levels : Nat} {path : Path} {node : Node} (hplaced : node.PlacedAt path)
    (hdeep : ∀ inner ∈ node.preorder, inner.depth < path.depth + levels) :
    ∀ parent, Rewriter.placeUnder parent node.name = path →
      visit [step] tree levels parent [] node =
        .ok (node.remnant (guard.matchesNode tree),
          removalTally (guard.matchesNode tree)
            (Node.unshaded (guard.matchesNode tree) node.preorder)) := by
  refine Node.PlacedAt.induction_levels ?_ hplaced hdeep
  intro levels path node hplaced ih parent hparent
  rw [visit, onNodeAll_removal hguard hrule, hplaced.unshaded_preorder, Node.remnant]
  cases hdoomed : guard.matchesNode tree node with
  | true => simp [removalTally, hdoomed, pure, Except.pure]
  | false =>
      have hchildren := siblings_eq_ok (visit_mindsNames [step] tree levels (some path))
        (fun child hchild => ih child hchild (some path) rfl)
        ((Node.remnant_names_sublist _).nodup hplaced.nodup_childNames)
      rw [total_removalTally] at hchildren
      simp only [Bool.false_eq_true, if_false, ok_bind, List.not_mem_nil, hparent]
      rw [fates_eq_ok fun member _ => onMemberAll_removal hrule node member _, ok_bind, hchildren,
        ok_bind, tallyOf_self, filterMap_fates, List.filterMap_some]
      have htally : Tally.merge { nodesVisited := 1 } (removalTally (guard.matchesNode tree)
          ((Keyed.values node.children).flatMap fun child =>
            Node.unshaded (guard.matchesNode tree) child.preorder)) =
          removalTally (guard.matchesNode tree) (node :: (Keyed.values node.children).flatMap
            fun child => Node.unshaded (guard.matchesNode tree) child.preorder) := by
        simp [removalTally, Tally.merge, hdoomed, Nat.add_comm]
      dsimp only
      rw [htally, ← hplaced.pruned_eq_assemble]
      rfl

end Removal

end Walk

/-! ## Whole rewrites -/

namespace Rewriter

variable {step : PureStep} {guard : Guard}

theorem apply_removal (hguard : step.guard = some guard) (hrule : step.rule = .removeNode)
    {forest : Forest} (hforest : forest.WellPlaced) {rewriter : Rewriter}
    (hdeep : ∀ node ∈ forest.nodes, node.depth < rewriter.levels) :
    rewriter.apply [step] forest = .ok
      { forest := forest.pruned (guard.matchesNode forest)
        tally := Walk.removalTally (guard.matchesNode forest)
          (Node.unshaded (guard.matchesNode forest) forest.nodes) } := by
  have hsettle : Walk.settle forest [step] = .ok (forest, 0) :=
    hforest.settle_self (by simp [hrule, Rule.onTree, pure, Except.pure])
  refine (apply_eq_ok_iff (List.cons_ne_nil _ _) hsettle).mpr ⟨?_, hforest.memberClash_pruned⟩
  rw [hforest.unshaded_nodes, ← Walk.total_removalTally]
  refine Walk.siblings_eq_ok (Walk.visit_mindsNames [step] forest rewriter.levels none)
    (fun root hroot => ?_) ((Node.remnant_names_sublist forest.roots).nodup hforest.roots_nodup)
  exact Walk.visit_removal hguard hrule (hforest.placed root hroot)
    (Forest.depth_lt_of_root hdeep hroot _) none rfl

/-- A removal always comes through. It leaves a well placed forest of the nodes that its
guard holds neither of nor of a node above, as they were and in their order, and counts
as removed the nodes that the guard holds of and of no node above. Of nodes below those
it does not matter what the guard says. -/
theorem removal_prunes (hguard : step.guard = some guard) (hrule : step.rule = .removeNode)
    {forest : Forest} (hforest : forest.WellPlaced) {rewriter : Rewriter}
    (hdeep : ∀ node ∈ forest.nodes, node.depth < rewriter.levels) :
    ∃ outcome, rewriter.apply [step] forest = .ok outcome ∧
      outcome.forest = forest.pruned (guard.matchesNode forest) ∧
      outcome.forest.WellPlaced ∧
      outcome.forest.nodes.map Node.bare =
        (forest.nodes.filter fun node => !guard.matchesNode forest node &&
          !Node.shaded (guard.matchesNode forest) forest.nodes node).map Node.bare ∧
      outcome.tally =
        { nodesVisited := forest.nodes.countP fun node =>
            !Node.shaded (guard.matchesNode forest) forest.nodes node
          nodesRemoved := forest.nodes.countP fun node => guard.matchesNode forest node &&
            !Node.shaded (guard.matchesNode forest) forest.nodes node } ∧
      ∀ (other : PureStep) (guard' : Guard), other.guard = some guard' →
        other.rule = .removeNode →
        (∀ node ∈ forest.nodes, Node.shaded (guard.matchesNode forest) forest.nodes node = false →
          guard'.matchesNode forest node = guard.matchesNode forest node) →
        rewriter.apply [other] forest = .ok outcome := by
  have happly := apply_removal hguard hrule hforest hdeep
  refine ⟨_, happly, rfl, wellPlaced_of_apply (List.cons_ne_nil _ _) happly, ?_, ?_, ?_⟩
  · rw [hforest.bare_pruned, Node.unshaded, List.filter_filter]
  · rw [Walk.removalTally, Node.unshaded, List.countP_filter, ← List.countP_eq_length_filter]
  · intro other guard' hguard' hrule' hsame
    have hsame' : ∀ node ∈ Node.unshaded (guard.matchesNode forest) forest.nodes,
        guard'.matchesNode forest node = guard.matchesNode forest node := by
      intro node hnode
      obtain ⟨hnode, hshaded⟩ := List.mem_filter.mp hnode
      exact hsame node hnode (by simpa using hshaded)
    obtain ⟨hpruned, hvisited⟩ := hforest.pruned_congr hsame'
    rw [apply_removal hguard' hrule' hforest hdeep, hpruned, hvisited, Walk.removalTally,
      Walk.removalTally, List.countP_congr fun node hnode => by rw [hsame' node hnode]]

/-- A root with a child that has two, and a second root. -/
def trellis : Forest :=
  .ofRoots [(Node.named "r").withChild (((Node.named "a").withChild
    ((Node.named "b").withMember (.named "m"))).withChild (.named "c")), .named "b"]

theorem trellis_wellPlaced : trellis.WellPlaced := by
  refine Forest.wellPlaced_iff.mpr ⟨rfl, ?_, ?_, ?_⟩ <;> decide

/-- Of the nodes called "a" and "b", one is below another. -/
def trellisGuard : Guard := .or (.nodeNamed "a") (.nodeNamed "b")

def trellisStep : PureStep :=
  { name := "cut", guard := some trellisGuard, rule := .removeNode }

theorem removal_prunes_trellis :
    ∃ outcome, (Rewriter.mk .refuse 4).apply [trellisStep] trellis = .ok outcome ∧
      outcome.forest.nodes.map Node.path = [.single "r"] ∧ outcome.forest.WellPlaced ∧
      outcome.forest.nodes.map Node.bare =
        (trellis.nodes.filter fun node => !trellisGuard.matchesNode trellis node &&
          !Node.shaded (trellisGuard.matchesNode trellis) trellis.nodes node).map Node.bare ∧
      outcome.tally = { nodesVisited := 3, nodesRemoved := 2 } ∧
      (Rewriter.mk .refuse 4).apply
        [{ trellisStep with guard := some (.or (.nodeNamed "a") (.and (.depth 0) (.nodeNamed "b"))) }]
        trellis = .ok outcome := by
  obtain ⟨outcome, happly, hforest, hplaced, hnodes, htally, hother⟩ :=
    @removal_prunes trellisStep trellisGuard rfl rfl trellis trellis_wellPlaced
      (Rewriter.mk .refuse 4) (by decide)
  refine ⟨outcome, happly, ?_, hplaced, hnodes, htally.trans (by decide), ?_⟩
  · rw [hforest]
    decide
  · exact hother _ _ rfl rfl (by decide)

end Rewriter

end TreePass
