import TreePass.Proofs.Rewrite.Identity
import TreePass.Proofs.Rewrite.Likeness

/-!
# Renaming everything at once

A rule that renames nodes and one that renames members give every node and every
member the name that a function gives to the old one. All of them are renamed at once:
a new name may be the old name of a node or a member that comes later. What alone
matters is that siblings, and members of one node, do not get one name.
-/

namespace TreePass

/-- The rule that gives every node the name that `f` gives to its own. -/
def Rule.renameNodes (f : String → String) : Rule (Except Fault) :=
  ofNode nodeName fun _ node => pure (some { node with name := f node.name })

/-- The rule that gives every member the name that `g` gives to its own. -/
def Rule.renameMembers (g : String → String) : Rule (Except Fault) :=
  ofMember memberName fun _ _ member => pure (some { member with name := g member.name })

/-- The rules that rename by a table are of these kinds. -/
theorem Rule.renameNodes_renamed (table : List (String × String)) :
    renameNodes (renamed table) = mapNodeNames table ∧
      renameMembers (renamed table) = mapMemberNames table :=
  ⟨rfl, rfl⟩

/-! ## Renamed forests -/

variable {f g : String → String}

def Path.mapNames (f : String → String) (path : Path) : Path :=
  ⟨f path.root, path.rest.map f⟩

theorem Path.mapNames_child (path : Path) (name : String) :
    (path.child name).mapNames f = (path.mapNames f).child (f name) := by
  simp [mapNames, child]

def Member.mapName (g : String → String) (member : Member) : Member :=
  { member with name := g member.name }

namespace Node

mutual

/-- The node with the names of nodes mapped by `f` and those of members by `g`, in keys
and paths as well. -/
def mapNames (f g : String → String) : Node → Node
  | ⟨name, documentation, attributes, members, children, path⟩ =>
      ⟨f name, documentation, attributes,
        members.map fun entry => (g entry.1, entry.2.mapName g),
        mapChildNames f g children, path.mapNames f⟩

def mapChildNames (f g : String → String) : List (String × Node) → List (String × Node)
  | [] => []
  | (key, child) :: rest => (f key, child.mapNames f g) :: mapChildNames f g rest

end

theorem mapChildNames_eq (children : List (String × Node)) : mapChildNames f g children =
    children.map fun entry => (f entry.1, entry.2.mapNames f g) := by
  induction children with
  | nil => rfl
  | cons entry rest ih => rw [mapChildNames, ih, List.map_cons]

@[simp] theorem mapNames_name (node : Node) : (node.mapNames f g).name = f node.name := by
  cases node
  rfl

@[simp] theorem mapNames_path (node : Node) :
    (node.mapNames f g).path = node.path.mapNames f := by
  cases node
  rfl

@[simp] theorem mapNames_members (node : Node) : (node.mapNames f g).members =
    node.members.map fun entry => (g entry.1, entry.2.mapName g) := by
  cases node
  rfl

@[simp] theorem mapNames_children (node : Node) : (node.mapNames f g).children =
    node.children.map fun entry => (f entry.1, entry.2.mapNames f g) := by
  rw [← mapChildNames_eq]
  cases node
  rfl

theorem preorder_mapNames (node : Node) :
    (node.mapNames f g).preorder = node.preorder.map (mapNames f g) := by
  induction node using Node.induction with
  | step node ih =>
      rw [preorder_eq, preorder_eq node, List.map_cons, mapNames_children, Keyed.values,
        Keyed.values, List.map_map, List.flatMap_map, List.flatMap_map, List.map_flatMap]
      exact congrArg _ (List.flatMap_congr ih)

/-- The node as the rule leaves it, with what is below it as it was. -/
def renamedBy (f : String → String) (node : Node) : Node :=
  { node with name := f node.name }

@[simp] theorem renamedBy_name (node : Node) : (node.renamedBy f).name = f node.name := rfl

@[simp] theorem renamedBy_members (node : Node) : (node.renamedBy f).members = node.members := rfl

/-- A placed node with new names is put together from its members and children with theirs. -/
theorem PlacedAt.mapNames_eq_assemble {path : Path} {node : Node} (hplaced : node.PlacedAt path) :
    node.mapNames f g = Walk.assemble (node.renamedBy f) (path.mapNames f)
      ((Keyed.values node.members).map (Member.mapName g))
      ((Keyed.values node.children).map (mapNames f g)) := by
  cases hplaced with
  | intro hpath hmember hchild _ _ =>
      have hmembers : (node.mapNames f g).members =
          ((Keyed.values node.members).map (Member.mapName g)).map
            fun member => (member.name, member) := by
        rw [mapNames_members, Keyed.values, List.map_map, List.map_map]
        exact List.map_congr_left fun entry hentry => by simp [hmember entry hentry, Member.mapName]
      have hchildren : (node.mapNames f g).children =
          ((Keyed.values node.children).map (mapNames f g)).map
            fun child => (child.name, child) := by
        rw [mapNames_children, Keyed.values, List.map_map, List.map_map]
        exact List.map_congr_left fun entry hentry => by simp [hchild entry hentry]
      rw [Walk.assemble, ← hmembers, ← hchildren, ← hpath, ← mapNames_path (g := g)]
      cases node
      rfl

end Node

/-- The forest with the names of nodes mapped by `f` and those of members by `g`. -/
def Forest.mapNames (f g : String → String) (forest : Forest) : Forest :=
  ⟨forest.roots.map (Node.mapNames f g)⟩

/-! ## Names that stay apart -/

/-- The function gives different names to different ones of the names. -/
def KeepsApart (f : String → String) (names : List String) : Prop :=
  ∀ name ∈ names, ∀ other ∈ names, f name = f other → name = other

instance (f : String → String) (names : List String) : Decidable (KeepsApart f names) :=
  inferInstanceAs (Decidable (∀ name ∈ names, ∀ other ∈ names, f name = f other → name = other))

theorem keepsApart_iff_nodup {names : List String} (hnames : names.Nodup) :
    KeepsApart f names ↔ (names.map f).Nodup :=
  (List.nodup_map_iff_inj_on hnames).symm

/-- No two roots and no two children of one node get one name. -/
structure Forest.NodesApart (f : String → String) (forest : Forest) : Prop where
  roots : KeepsApart f (forest.roots.map Node.name)
  children : ∀ node ∈ forest.nodes, KeepsApart f node.childNames

/-- No two members of one node get one name. -/
def Forest.MembersApart (g : String → String) (forest : Forest) : Prop :=
  ∀ node ∈ forest.nodes, KeepsApart g node.memberNames

/-! ## Walks that rename -/

/-- The steps rename every node by `f` and every member by `g`, in either order. -/
structure RenamingSteps (f g : String → String) (steps : List PureStep) : Prop where
  guards : ∀ step ∈ steps, step.guard = none
  rules : steps.map Step.rule = [.renameNodes f, .renameMembers g] ∨
    steps.map Step.rule = [.renameMembers g, .renameNodes f]

namespace Walk

variable {steps : List PureStep} {tree : Forest}

/-- What is counted where nodes and their members are renamed. -/
def renamingTally (f g : String → String) (nodes : List Node) : Tally where
  nodesVisited := nodes.length
  nodesRenamed := nodes.countP fun node => f node.name ≠ node.name
  membersRewritten := (nodes.flatMap fun node => Keyed.values node.members).countP
    fun member => g member.name ≠ member.name

theorem total_renamingTally (nodes : List Node) :
    Tally.total (nodes.map fun node => renamingTally f g node.preorder) =
      renamingTally f g (nodes.flatMap Node.preorder) :=
  Tally.total_flatMap rfl (fun _ _ => by simp [renamingTally, Tally.merge]) Node.preorder nodes

theorem merge_renamingTally (node : Node) (below : List Node) :
    Tally.merge (tallyOf node (node.renamedBy f) ((Keyed.values node.members).map fun member =>
        (member, some (member.mapName g)))) (renamingTally f g below) =
      renamingTally f g (node :: below) := by
  have hmember (member : Member) : member.mapName g = member ↔ g member.name = member.name := by
    cases member
    simp [Member.mapName]
  have hchildren : missing node.childNames (node.renamedBy f).childNames = 0 := missing_self _
  have hchildren' : missing (node.renamedBy f).childNames node.childNames = 0 := missing_self _
  have hmembers : missing node.memberNames (node.renamedBy f).memberNames = 0 := missing_self _
  have hmembers' : missing (node.renamedBy f).memberNames node.memberNames = 0 := missing_self _
  rw [tallyOf, hchildren, hchildren', hmembers, hmembers']
  by_cases hname : f node.name = node.name <;>
    simp [Tally.merge, renamingTally, Node.renamedBy, hname, hmember, List.countP_map,
      Function.comp_def, Nat.add_comm]

/-- The answer is a value under the condition; otherwise a node is there twice. -/
def Hinges {α : Type} (condition : Prop) (answer : Except Fault α) (value : α) : Prop :=
  condition ∧ answer = .ok value ∨
    ¬ condition ∧ ∃ path, answer = .error (.build (.duplicateNode path))

namespace Hinges

variable {α β : Type} {first second : Prop} {answer : Except Fault α} {value : α}

theorem of_iff (hanswer : Hinges first answer value) (hiff : first ↔ second) :
    Hinges second answer value := by
  rwa [Hinges, ← hiff]

/-- Work that goes on from a value needs both conditions. -/
theorem bind {next : α → Except Fault β} {result : β} (hanswer : Hinges first answer value)
    (hnext : Hinges second (next value) result) :
    Hinges (first ∧ second) (answer >>= next) result := by
  rcases hanswer with ⟨hfirst, rfl⟩ | ⟨hnot, path, rfl⟩
  · rw [ok_bind]
    exact hnext.of_iff (and_iff_right hfirst).symm
  · rw [error_bind]
    exact .inr ⟨fun hboth => hnot hboth.1, path, rfl⟩

theorem map (next : α → β) (hanswer : Hinges first answer value) :
    Hinges first (answer >>= fun value => .ok (next value)) (next value) := by
  rcases hanswer with ⟨hfirst, rfl⟩ | ⟨hnot, path, rfl⟩
  · exact .inl ⟨hfirst, rfl⟩
  · exact .inr ⟨hnot, path, rfl⟩

end Hinges

/-- Siblings come through with new names if these are free and different and each of the
siblings comes through. -/
theorem siblings_hinges {visit : List String → Node → Except Fault (Option Node × Tally)}
    {sound : Node → Prop} {count : Node → Tally} {nodes : List Node}
    (hvisit : ∀ node ∈ nodes, ∀ taken, Hinges (f node.name ∉ taken ∧ sound node)
      (visit taken node) (some (node.mapNames f g), count node)) (taken : List String) :
    Hinges (((nodes.map fun node => f node.name).Nodup ∧ ∀ node ∈ nodes, f node.name ∉ taken) ∧
        ∀ node ∈ nodes, sound node)
      (siblings visit taken nodes)
      (nodes.map (Node.mapNames f g), Tally.total (nodes.map count)) := by
  induction nodes generalizing taken with
  | nil => exact .inl ⟨by simp, rfl⟩
  | cons node rest ih =>
      obtain ⟨hnode, hrest⟩ := List.forall_mem_cons.mp hvisit
      have hothers := (ih hrest ([(node.mapNames f g).name] ++ taken)).map fun left =>
        (node.mapNames f g :: left.1, (count node).merge left.2)
      refine ((hnode taken).bind hothers).of_iff ?_
      -- The new name of the first sibling must be none of the later ones.
      simp only [List.map_cons, List.nodup_cons, List.mem_map, not_exists, not_and,
        List.singleton_append, List.mem_cons, not_or, forall_eq_or_imp, forall_and,
        Node.mapNames_name]
      tauto

section Renaming

variable (hsteps : RenamingSteps f g steps)

include hsteps

theorem onNodeAll_renaming (node : Node) : Rule.onNodeAll tree node
    (rulesFor steps tree (.node node)) = .ok (some (node.renamedBy f)) := by
  rw [rulesFor_of_unguarded hsteps.guards]
  rcases hsteps.rules with hrules | hrules <;> rw [hrules] <;> rfl

theorem onMemberAll_renaming (node : Node) (member : Member) (subject : Subject) :
    Rule.onMemberAll tree node member (rulesFor steps tree subject) =
      .ok (some (member.mapName g)) := by
  rw [rulesFor_of_unguarded hsteps.guards]
  rcases hsteps.rules with hrules | hrules <;> rw [hrules] <;> rfl

/-- A placed node comes through under its new name if that is free and no two children
get one name in it, at any depth. -/
theorem visit_hinges {levels : Nat} {path : Path} {node : Node} (hplaced : node.PlacedAt path)
    (hdeep : ∀ inner ∈ node.preorder, inner.depth < path.depth + levels) :
    ∀ parent, Rewriter.placeUnder parent (f node.name) = path.mapNames f → ∀ taken,
      Hinges (f node.name ∉ taken ∧ ∀ inner ∈ node.preorder, KeepsApart f inner.childNames)
        (visit steps tree levels parent taken node)
        (some (node.mapNames f g), renamingTally f g node.preorder) := by
  refine Node.PlacedAt.induction_levels ?_ hplaced hdeep
  intro levels path node hplaced ih parent hparent taken
  have hnames : KeepsApart f node.childNames ↔
      ((Keyed.values node.children).map fun child => f child.name).Nodup := by
    have hnodup : KeepsApart f node.childNames ↔ (node.childNames.map f).Nodup :=
      keepsApart_iff_nodup hplaced.distinct_children
    rw [hnodup, ← hplaced.map_name_children, List.map_map]
    rfl
  have hpreorder : (∀ inner ∈ node.preorder, KeepsApart f inner.childNames) ↔
      KeepsApart f node.childNames ∧ ∀ child ∈ Keyed.values node.children,
        ∀ inner ∈ child.preorder, KeepsApart f inner.childNames := by
    rw [node.preorder_eq, List.forall_mem_cons, List.forall_mem_flatMap]
  rw [visit, onNodeAll_renaming hsteps, ok_bind]
  by_cases htaken : f node.name ∈ taken
  · exact .inr ⟨fun hall => hall.1 htaken, _, if_pos htaken⟩
  · have hchildren := siblings_hinges (fun child hchild taken =>
      ih child hchild (some (path.mapNames f)) (path.mapNames_child child.name).symm taken) []
    rw [total_renamingTally] at hchildren
    have hkept := hchildren.map fun left =>
      (some (assemble (node.renamedBy f) (path.mapNames f)
          ((Keyed.values node.members).map (Member.mapName g)) left.1),
        (tallyOf node (node.renamedBy f) ((Keyed.values node.members).map fun member =>
          (member, some (member.mapName g)))).merge left.2)
    dsimp only
    rw [merge_renamingTally, ← hplaced.mapNames_eq_assemble, ← node.preorder_eq] at hkept
    rw [Node.renamedBy_name, hparent, if_neg htaken, Node.renamedBy_members,
      fates_eq_ok fun member _ => onMemberAll_renaming hsteps _ member _, ok_bind, filterMap_fates,
      List.filterMap_eq_map']
    refine hkept.of_iff ?_
    rw [hpreorder, hnames]
    simp [htaken]

end Renaming

end Walk

/-! ## Whole rewrites -/

namespace Forest.WellPlaced

variable {forest : Forest}

theorem memberClash_mapNames (hforest : forest.WellPlaced) :
    (forest.mapNames f g).memberClash = none ↔ forest.MembersApart g := by
  have hnodes : (forest.mapNames f g).nodes = forest.nodes.map (Node.mapNames f g) := by
    rw [nodes, nodes, mapNames, List.flatMap_map, List.map_flatMap]
    exact List.flatMap_congr fun root _ => root.preorder_mapNames
  rw [memberClash_eq_none_iff, hnodes, List.forall_mem_map]
  refine forall₂_congr fun node hnode => ?_
  obtain ⟨-, -, -, hkeys⟩ := wellPlaced_iff.mp hforest
  have hapart : KeepsApart g node.memberNames ↔ (node.memberNames.map g).Nodup :=
    keepsApart_iff_nodup (hforest.member_distinct node hnode)
  have hnames : (Keyed.values (node.mapNames f g).members).map Member.name =
      node.memberNames.map g := by
    rw [Node.mapNames_members, Node.memberNames, ← Keyed.map_label_values (hkeys node hnode).1,
      Keyed.values, Keyed.values, List.map_map, List.map_map, List.map_map, List.map_map]
    rfl
  rw [hapart, hnames]

theorem nodesApart_iff (hforest : forest.WellPlaced) :
    ((forest.roots.map fun root => f root.name).Nodup ∧ ∀ root ∈ forest.roots,
      ∀ inner ∈ root.preorder, KeepsApart f inner.childNames) ↔ forest.NodesApart f := by
  have hroots : KeepsApart f (forest.roots.map Node.name) ↔
      (forest.roots.map fun root => f root.name).Nodup := by
    rw [keepsApart_iff_nodup hforest.roots_nodup, List.map_map]
    rfl
  rw [← hroots, ← List.forall_mem_flatMap]
  exact ⟨fun hapart => ⟨hapart.1, hapart.2⟩, fun hapart => ⟨hapart.roots, hapart.children⟩⟩

end Forest.WellPlaced

namespace Rewriter

variable {steps : List PureStep} {forest : Forest} {rewriter : Rewriter}

/-- The roots come through under their new names if the names of nodes stay apart. -/
theorem roots_hinge (hsteps : RenamingSteps f g steps) (hforest : forest.WellPlaced)
    (hdeep : ∀ node ∈ forest.nodes, node.depth < rewriter.levels) :
    Walk.Hinges (forest.NodesApart f)
      (Walk.siblings (Walk.visit steps forest rewriter.levels none) [] forest.roots)
      (forest.roots.map (Node.mapNames f g), Walk.renamingTally f g forest.nodes) := by
  have hvisit : ∀ root ∈ forest.roots, ∀ taken, Walk.Hinges
      (f root.name ∉ taken ∧ ∀ inner ∈ root.preorder, KeepsApart f inner.childNames)
      (Walk.visit steps forest rewriter.levels none taken root)
      (some (root.mapNames f g), Walk.renamingTally f g root.preorder) := by
    intro root hroot
    exact Walk.visit_hinges hsteps (hforest.placed root hroot)
      (Forest.depth_lt_of_root hdeep hroot _) none rfl
  have hroots := Walk.siblings_hinges hvisit []
  rw [Walk.total_renamingTally] at hroots
  refine hroots.of_iff (Iff.trans (and_congr_left' ?_) hforest.nodesApart_iff)
  exact and_iff_left fun _ _ => List.not_mem_nil

theorem settle_renaming (hsteps : RenamingSteps f g steps) (hforest : forest.WellPlaced) :
    Walk.settle forest steps = .ok (forest, 0) := by
  have hgives : ∀ rule ∈ steps.map Step.rule, rule.onTree forest = .ok forest := by
    rcases hsteps.rules with hrules | hrules <;> rw [hrules] <;>
      exact List.forall_mem_cons.mpr ⟨rfl, List.forall_mem_singleton.mpr rfl⟩
  exact hforest.settle_self (List.forall_mem_map.mp hgives)

/-- All nodes and members get their new names at once. That comes through exactly if new
names differ where old ones had to: then every name, key and path is mapped, nothing
else is changed, and those that got another name are counted. Otherwise a node is there
twice if nodes are at fault, and a member if only members are. -/
theorem renaming_simultaneous (hsteps : RenamingSteps f g steps) (hforest : forest.WellPlaced)
    (hdeep : ∀ node ∈ forest.nodes, node.depth < rewriter.levels) :
    ((∃ outcome, rewriter.apply steps forest = .ok outcome) ↔
        forest.NodesApart f ∧ forest.MembersApart g) ∧
      (forest.NodesApart f → forest.MembersApart g → rewriter.apply steps forest = .ok
        { forest := forest.mapNames f g
          tally :=
            { nodesVisited := forest.nodeCount
              nodesRenamed := forest.nodes.countP fun node => f node.name ≠ node.name
              membersRewritten := (forest.nodes.flatMap fun node =>
                Keyed.values node.members).countP fun member => g member.name ≠ member.name } }) ∧
      (¬ forest.NodesApart f →
        ∃ path, rewriter.apply steps forest = .error (.build (.duplicateNode path))) ∧
      (forest.NodesApart f → ¬ forest.MembersApart g → ∃ path member,
        rewriter.apply steps forest = .error (.build (.duplicateMember path member))) := by
  have hne : steps ≠ [] := by
    rintro rfl
    rcases hsteps.rules with hrules | hrules <;> cases hrules
  have happly := apply_of_settle rewriter hne (settle_renaming hsteps hforest)
  rcases roots_hinge hsteps hforest hdeep with ⟨hnodes, hleft⟩ | ⟨hnodes, path, hfault⟩
  · have hclash : (Forest.memberClash ⟨forest.roots.map (Node.mapNames f g)⟩ = none) ↔
        forest.MembersApart g := hforest.memberClash_mapNames
    rw [hleft, ok_bind] at happly
    cases hmembers : Forest.memberClash ⟨forest.roots.map (Node.mapNames f g)⟩ with
    | none =>
        have hapart := hclash.mp hmembers
        rw [hmembers] at happly
        refine ⟨⟨fun _ => ⟨hnodes, hapart⟩, fun _ => ⟨_, happly⟩⟩, fun _ _ => ?_,
          absurd hnodes, fun _ => absurd hapart⟩
        exact happly.trans (congrArg Except.ok
          (congrArg (Outcome.mk (forest.mapNames f g)) (Tally.zero_merge _)))
    | some fault =>
        have hclashes : ¬ forest.MembersApart g := fun hapart => by
          rw [hclash.mpr hapart] at hmembers
          cases hmembers
        obtain ⟨path, member, rfl⟩ := fault_of_memberClash hmembers
        rw [hmembers] at happly
        refine ⟨⟨fun hends => ?_, fun hboth => absurd hboth.2 hclashes⟩,
          fun _ hapart => absurd hapart hclashes, absurd hnodes, fun _ _ => ⟨path, member, happly⟩⟩
        obtain ⟨outcome, hends⟩ := hends
        rw [happly] at hends
        cases hends
  · rw [hfault, error_bind] at happly
    refine ⟨⟨fun hends => ?_, fun hboth => absurd hboth.1 hnodes⟩,
      fun hboth => absurd hboth hnodes, fun _ => ⟨path, happly⟩, fun hboth => absurd hboth hnodes⟩
    obtain ⟨outcome, hends⟩ := hends
    rw [happly] at hends
    cases hends

/-- Two roots, the first with two members and a child that has the name of the second. -/
def orchard : Forest :=
  .ofRoots [(((Node.named "a").withMember (.named "m")).withMember (.named "n")).withChild
    (.named "b"), .named "b"]

theorem orchard_wellPlaced : orchard.WellPlaced := by
  refine Forest.wellPlaced_iff.mpr ⟨rfl, ?_, ?_, ?_⟩ <;> decide

/-- The steps rename nodes by the one table and members by the other. -/
def tableSteps (nodes members : List (String × String)) : List PureStep :=
  [.ofRule (.mapMemberNames members), .ofRule (.mapNodeNames nodes)]

theorem tableSteps_renaming (nodes members : List (String × String)) :
    RenamingSteps (Rule.renamed nodes) (Rule.renamed members) (tableSteps nodes members) where
  guards := by simp [tableSteps, Step.ofRule]
  rules := by
    obtain ⟨hnodes, -⟩ := Rule.renameNodes_renamed nodes
    obtain ⟨-, hmembers⟩ := Rule.renameNodes_renamed members
    rw [hnodes, hmembers]
    exact .inr rfl

/-- Two names are exchanged and names of members move up; where both roots, or else both
members of a node, get one name, the rewrite fails. -/
theorem renaming_simultaneous_orchard :
    (Rewriter.mk .refuse 4).apply (tableSteps [("a", "b"), ("b", "a")] [("m", "n"), ("n", "k")])
        orchard = .ok
      { forest := orchard.mapNames (Rule.renamed [("a", "b"), ("b", "a")])
          (Rule.renamed [("m", "n"), ("n", "k")])
        tally := { nodesVisited := 3, nodesRenamed := 3, membersRewritten := 2 } } ∧
      (∃ path, (Rewriter.mk .refuse 4).apply (tableSteps [("b", "a")] [("m", "n")]) orchard =
        .error (.build (.duplicateNode path))) ∧
      ∃ path member, (Rewriter.mk .refuse 4).apply (tableSteps [] [("m", "n")]) orchard =
        .error (.build (.duplicateMember path member)) := by
  have hdeep : ∀ node ∈ orchard.nodes, node.depth < (Rewriter.mk .refuse 4).levels := by decide
  refine ⟨?_, ?_, ?_⟩
  · exact (renaming_simultaneous (tableSteps_renaming _ _) orchard_wellPlaced hdeep).2.1
      ⟨by decide, by decide⟩ (by unfold Forest.MembersApart; decide)
  · refine (renaming_simultaneous (tableSteps_renaming _ _) orchard_wellPlaced hdeep).2.2.1 ?_
    exact fun hapart => absurd hapart.roots (by decide)
  · exact (renaming_simultaneous (tableSteps_renaming _ _) orchard_wellPlaced hdeep).2.2.2
      ⟨by decide, by decide⟩ (by unfold Forest.MembersApart; decide)

end Rewriter

end TreePass
