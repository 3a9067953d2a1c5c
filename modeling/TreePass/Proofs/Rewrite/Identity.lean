import TreePass.Proofs.Forest.Accuracy
import TreePass.Proofs.Rewrite.Correspondence
import TreePass.Proofs.Rewrite.Refinement
import TreePass.Proofs.Rewrite.Siblings
import TreePass.Rule.Stock

/-!
# Rewrites that change nothing

A step is idle if it never applies or its rule gives back whatever it is given. Idle
steps take a well placed forest apart and put it together again as it was, and count
nothing but the nodes that they visit. So it makes no difference whether there are
idle steps or no steps at all.
-/

namespace TreePass

variable {σ : Type}

/-- The rule gives back what it is given, though it may have effects. -/
structure Rule.GivesBack (rule : Rule (Work σ)) : Prop where
  onTree : ∀ forest, Shows (rule.onTree forest) (.ok forest)
  onNode : ∀ forest node, Shows (rule.onNode forest node) (.ok (some node))
  onMember : ∀ forest node member, Shows (rule.onMember forest node member) (.ok (some member))

namespace Step

/-- The step never applies, or it gives back what it is given. -/
def Idle (step : Step (Work σ)) : Prop :=
  (∀ forest subject, step.admits forest subject = false) ∨ step.rule.GivesBack

/-- The step with its rule replaced by the one that does nothing. -/
def stilled (step : Step (Work σ)) : PureStep where
  name := step.name
  documentation := step.documentation
  guard := step.guard
  rule := .idle step.rule.name

theorem Idle.corresponds_stilled {step : Step (Work σ)} (hstep : step.Idle) :
    step.Corresponds (.shown σ) step.stilled := by
  have hadmits (forest : Forest) (subject : Subject) :
      step.stilled.admits forest subject = step.admits forest subject := rfl
  rcases hstep with hnever | hback
  · refine ⟨rfl, ?_, ?_, ?_⟩ <;> intros <;> simp_all
  · exact ⟨rfl, fun forest _ => hback.onTree forest,
      fun forest _ current _ => hback.onNode forest current,
      fun forest _ node _ current _ => hback.onMember forest node current⟩

end Step

/-! ## Walks by idle rules -/

namespace Rule

/-- Each of the rules is the one that does nothing, under some name. -/
def AllIdle (rules : List (Rule (Except Fault))) : Prop :=
  ∀ rule ∈ rules, ∃ name, rule = idle name

variable {rules : List (Rule (Except Fault))}

theorem AllIdle.onNodeAll_eq (hrules : AllIdle rules) (forest : Forest) (node : Node) :
    onNodeAll forest node rules = .ok (some node) := by
  induction rules with
  | nil => rfl
  | cons rule rest ih =>
      obtain ⟨⟨name, rfl⟩, hrest⟩ := List.forall_mem_cons.mp hrules
      exact ih hrest

theorem AllIdle.onMemberAll_eq (hrules : AllIdle rules) (forest : Forest) (node : Node)
    (member : Member) : onMemberAll forest node member rules = .ok (some member) := by
  induction rules with
  | nil => rfl
  | cons rule rest ih =>
      obtain ⟨⟨name, rfl⟩, hrest⟩ := List.forall_mem_cons.mp hrules
      exact ih hrest

end Rule

namespace Walk

variable {steps : List PureStep} {tree : Forest}

theorem rulesFor_idle (hsteps : Rule.AllIdle (steps.map Step.rule)) (subject : Subject) :
    Rule.AllIdle (rulesFor steps tree subject) := by
  intro rule hrule
  obtain ⟨step, hstep, -, rfl⟩ := exists_of_mem_rulesFor hrule
  exact hsteps _ (List.mem_map_of_mem hstep)

theorem missing_self (names : List String) : missing names names = 0 := by
  simp [missing]

/-- Of a node that stays as it is, only that it was visited is counted. -/
theorem tallyOf_self (node : Node) (members : List Member) :
    tallyOf node node (members.map fun member => (member, some member)) =
      { nodesVisited := 1 } := by
  simp [tallyOf, missing_self, List.countP_eq_zero]

theorem total_visited (nodes : List Node) :
    Tally.total (nodes.map fun node => { nodesVisited := node.preorder.length }) =
      { nodesVisited := (nodes.flatMap Node.preorder).length } :=
  @Tally.total_flatMap _ _ (fun nodes => { nodesVisited := nodes.length }) rfl
    (fun _ _ => by simp [Tally.merge]) Node.preorder nodes

/-- A placed node is put together from its own members and children. -/
theorem assemble_self {path : Path} {node : Node} (hplaced : node.PlacedAt path) :
    assemble node path (Keyed.values node.members) (Keyed.values node.children) = node := by
  cases hplaced with
  | intro hpath hmember hchild _ _ =>
      rw [assemble, Keyed.map_values_label hmember, Keyed.map_values_label hchild, ← hpath]
      cases node
      rfl

/-- The steps give back the node and each of its members. -/
structure RestsAt (steps : List PureStep) (tree : Forest) (node : Node) : Prop where
  onNode : Rule.onNodeAll tree node (rulesFor steps tree (.node node)) = .ok (some node)
  onMember : ∀ member ∈ Keyed.values node.members,
    Rule.onMemberAll tree node member (rulesFor steps tree (.member node member)) =
      .ok (some member)

theorem restsAt_idle (hsteps : Rule.AllIdle (steps.map Step.rule)) (node : Node) :
    RestsAt steps tree node where
  onNode := (rulesFor_idle hsteps _).onNodeAll_eq tree node
  onMember member _ := (rulesFor_idle hsteps _).onMemberAll_eq tree node member

/-- A placed node in which the steps give back everything is left where it is, within as
many levels as it goes down. -/
theorem visit_at_rest {levels : Nat} {path : Path} {node : Node} (hplaced : node.PlacedAt path)
    (hdeep : ∀ inner ∈ node.preorder, inner.depth < path.depth + levels)
    (hrests : ∀ inner ∈ node.preorder, RestsAt steps tree inner) :
    ∀ parent, Rewriter.placeUnder parent node.name = path →
      visit steps tree levels parent [] node =
        .ok (some node, { nodesVisited := node.preorder.length }) := by
  refine Node.PlacedAt.induction_levels ?_ hplaced hdeep hrests
  intro levels path node hplaced ih hrests parent hparent
  have hbelow : ∀ child ∈ Keyed.values node.children, ∀ inner ∈ child.preorder,
      RestsAt steps tree inner := by
    intro child hchild inner hinner
    obtain ⟨entry, hentry, rfl⟩ := List.mem_map.mp hchild
    exact hrests inner (Node.mem_preorder_of_child hentry hinner)
  obtain ⟨hnode, hmembers⟩ := hrests node node.mem_preorder_self
  have hchildren := siblings_eq_ok (visit_mindsNames steps tree levels (some path))
    (fun child hchild => ih child hchild (hbelow child hchild) (some path) rfl)
    (by rw [List.filterMap_some]; exact hplaced.nodup_childNames)
  have htally (below : List Node) : Tally.merge { nodesVisited := 1 }
      { nodesVisited := below.length } = { nodesVisited := (node :: below).length } := by
    simp [Tally.merge, Nat.add_comm]
  rw [total_visited, List.filterMap_some] at hchildren
  rw [visit, hnode]
  simp only [ok_bind, List.not_mem_nil, if_false, hparent]
  rw [fates_eq_ok hmembers, ok_bind, hchildren, ok_bind, tallyOf_self, filterMap_fates,
    List.filterMap_some, node.preorder_eq]
  dsimp only
  rw [htally, assemble_self hplaced]
  rfl

/-- So are the roots of a well placed forest. -/
theorem roots_at_rest (htree : tree.WellPlaced)
    (hrests : ∀ node ∈ tree.nodes, RestsAt steps tree node) {levels : Nat}
    (hdeep : ∀ node ∈ tree.nodes, node.depth < levels) :
    siblings (visit steps tree levels none) [] tree.roots =
      .ok (tree.roots, { nodesVisited := tree.nodeCount }) := by
  have hvisits := siblings_eq_ok (visit_mindsNames steps tree levels none)
    (fun root hroot => visit_at_rest (htree.placed root hroot)
      (Forest.depth_lt_of_root hdeep hroot _)
      (fun inner hinner => hrests inner (List.mem_flatMap.mpr ⟨root, hroot, hinner⟩)) none rfl)
    (by rw [List.filterMap_some]; exact htree.roots_nodup)
  rwa [total_visited, List.filterMap_some] at hvisits

end Walk

/-! ## Whole rewrites -/

theorem Forest.WellPlaced.memberClash_eq_none {forest : Forest} (hforest : forest.WellPlaced) :
    forest.memberClash = none := by
  obtain ⟨-, hdistinct, -, hkeys⟩ := Forest.wellPlaced_iff.mp hforest
  refine Forest.memberClash_eq_none_iff.mpr fun node hnode => ?_
  obtain ⟨root, hroot, hinner⟩ := List.mem_flatMap.mp hnode
  rw [Keyed.map_label_values (hkeys node hnode).1]
  exact (hdistinct root hroot node hinner).1

namespace Rewriter

/-- Steps that give back the forest and everything in it leave it as it is, and count only
its nodes as visited. -/
theorem apply_at_rest {steps : List PureStep} (hsteps : steps ≠ []) {forest : Forest}
    (hforest : forest.WellPlaced)
    (hgives : ∀ step ∈ steps, step.rule.onTree forest = .ok forest)
    (hrests : ∀ node ∈ forest.nodes, Walk.RestsAt steps forest node) {rewriter : Rewriter}
    (hdeep : ∀ node ∈ forest.nodes, node.depth < rewriter.levels) :
    rewriter.apply steps forest =
      .ok { forest, tally := { nodesVisited := forest.nodeCount } } := by
  exact (apply_eq_ok_iff hsteps (hforest.settle_self hgives)).mpr
    ⟨Walk.roots_at_rest hforest hrests hdeep, hforest.memberClash_eq_none⟩

/-- Idle steps leave a well placed forest exactly as it is, as no steps do, and count
only its nodes as visited, whatever becomes of gaps and whatever effects the rules have. -/
theorem apply_idle {steps : List (Step (Work σ))} (hsteps : steps ≠ [])
    (hidle : ∀ step ∈ steps, step.Idle) {forest : Forest} (hforest : forest.WellPlaced)
    {rewriter : Rewriter} (hdeep : ∀ node ∈ forest.nodes, node.depth < rewriter.levels) :
    Shows (rewriter.apply steps forest)
        (.ok { forest, tally := { nodesVisited := forest.nodeCount } }) ∧
      Tally.changed { nodesVisited := forest.nodeCount } = false ∧
      Shows (rewriter.apply ([] : List (Step (Work σ))) forest)
        (.ok { forest, tally := .zero }) := by
  refine ⟨?_, rfl, .pure _⟩
  have hstilled : Rule.AllIdle ((steps.map Step.stilled).map Step.rule) := by
    simp [Rule.AllIdle, Step.stilled]
  have hsame : List.Forall₂ (Step.Corresponds (.shown σ)) steps (steps.map Step.stilled) :=
    List.forall₂_map_right_iff.mpr
      (List.forall₂_same.mpr fun step hstep => (hidle step hstep).corresponds_stilled)
  have hgives : ∀ step ∈ steps.map Step.stilled, step.rule.onTree forest = .ok forest :=
    List.forall_mem_map.mpr fun _ _ => rfl
  rw [← apply_at_rest (by simpa using hsteps) hforest hgives
    (fun node _ => Walk.restsAt_idle hstilled node) hdeep]
  exact apply_corresponds hsame rewriter forest

/-- Two roots, the first with a member and with a child that has one. -/
def thicket : Forest :=
  .ofRoots [((Node.named "r").withMember (.named "m")).withChild
    ((Node.named "c").withMember (.named "k")), .named "s"]

/-- A removal that never applies, a rule that counts the nodes that it sees, and one
that does nothing to members. -/
def lookingSteps : List (Step (Work Nat)) :=
  [{ name := "never", guard := some .never, rule := .removeNode },
    .ofRule (.observeNode (modify (· + 1))),
    { name := "members", guard := some (.depth 0), rule := .idle "members" }]

theorem lookingSteps_idle : ∀ step ∈ lookingSteps, step.Idle := by
  refine List.forall_mem_cons.mpr ⟨.inl fun _ _ => rfl, List.forall_mem_cons.mpr ⟨.inr ?_,
    List.forall_mem_singleton.mpr (.inr ?_)⟩⟩
  · exact ⟨fun _ => .pure _, fun _ _ seen => ⟨seen + 1, rfl⟩, fun _ _ _ => .pure _⟩
  · exact ⟨fun _ => .pure _, fun _ _ => .pure _, fun _ _ _ => .pure _⟩

theorem thicket_wellPlaced : thicket.WellPlaced := by
  refine Forest.wellPlaced_iff.mpr ⟨rfl, ?_, ?_, ?_⟩ <;> decide

theorem apply_idle_thicket :
    Shows ((Rewriter.mk .fill 4).apply lookingSteps thicket)
        (.ok { forest := thicket, tally := { nodesVisited := 3 } }) ∧
      Tally.changed { nodesVisited := 3 } = false ∧
      Shows ((Rewriter.mk .fill 4).apply ([] : List (Step (Work Nat))) thicket)
        (.ok { forest := thicket, tally := .zero }) :=
  apply_idle (List.cons_ne_nil _ _) lookingSteps_idle thicket_wellPlaced (by decide)

end Rewriter

end TreePass
