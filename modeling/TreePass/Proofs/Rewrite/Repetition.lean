import TreePass.Proofs.Attribute.Order
import TreePass.Proofs.Rewrite.Identity

/-!
# Rewrites done twice

A rule of the stock that adds no children has nothing left to do where it was applied
everywhere. If a rewrite by it alone comes through, the same rewrite of what it made
changes nothing. It has to come through, though: a rule that renames may give siblings or
members one name, and then there is nothing to go on from.
-/

namespace TreePass

namespace Node

theorem withMember_of_put {node : Node} {member : Member}
    (hput : Keyed.put member.name member node.members = node.members) :
    node.withMember member = node := by
  cases node
  rw [withMember, withMemberAt, hput]

theorem withoutChild_of_notMem {node : Node} {name : String}
    (hname : name ∉ Keyed.keys node.children) : node.withoutChild name = node := by
  have hall : node.children.filter (fun entry => entry.1 ≠ name) = node.children := by
    refine List.filter_eq_self.mpr fun entry hentry => decide_eq_true fun heq => ?_
    exact hname (heq ▸ List.mem_map_of_mem hentry)
  cases node
  rw [withoutChild, Keyed.erase, hall]

end Node

namespace Rule

/-- The rules of the stock that add no children. In a root that is added, keys are
names. -/
inductive Settling : Rule (Except Fault) → Prop where
  | addRoot {root : Node} (wellPlaced : (Forest.ofRoots [root]).WellPlaced) :
      Settling (.addRoot root)
  | removeRoot (name : String) : Settling (.removeRoot name)
  | addMember (member : Member) : Settling (.addMember member)
  | removeMember (name : String) : Settling (.removeMember name)
  | renameMember (old new : String) : Settling (.renameMember old new)
  | retypeMember (name : String) (typeName : Option String) :
      Settling (.retypeMember name typeName)
  | documentMember (name : String) (documentation : Option String) :
      Settling (.documentMember name documentation)
  | removeChild (name : String) : Settling (.removeChild name)
  | removeNode : Settling .removeNode
  | renameNode (name : String) : Settling (.renameNode name)
  | setDocumentation (documentation : Option String) : Settling (.setDocumentation documentation)
  | addAttribute (value : Attribute) (target : Target) : Settling (.addAttribute value target)
  | removeAttribute (key : String) (target : Target) : Settling (.removeAttribute key target)

variable {rule : Rule (Except Fault)} {forest : Forest} {node : Node}

/-! ## Members -/

/-- What is done to the members of a name need not be done again, if what it leaves of a
member it gives back. -/
theorem onNamed_again {name : String} {member left : Member} {f : Member → Option Member}
    (hf : f member = some left → f left = some left)
    (hleft : (.ok (onNamed name member f) : Except Fault _) = .ok (some left)) :
    (.ok (onNamed name left f) : Except Fault _) = .ok (some left) := by
  rw [onNamed] at hleft ⊢
  split at hleft
  next =>
    split
    next => exact congrArg Except.ok (hf (Except.ok.inj hleft))
    next => rfl
  next hname =>
    cases hleft
    rw [if_neg hname]

/-- What is left of a member is left as it is, wherever it is. -/
theorem Settling.onMember_again (hrule : rule.Settling) {member left : Member}
    (hleft : rule.onMember forest node member = .ok (some left)) (forest' : Forest)
    (node' : Node) : rule.onMember forest' node' left = .ok (some left) := by
  cases hrule with
  | removeMember name => exact onNamed_again (fun hnone => nomatch hnone) hleft
  | renameMember old new => exact onNamed_again (fun hnew => by cases hnew; rfl) hleft
  | retypeMember name typeName => exact onNamed_again (fun hnew => by cases hnew; rfl) hleft
  | documentMember name documentation =>
      exact onNamed_again (fun hnew => by cases hnew; rfl) hleft
  | addAttribute value target =>
      cases target with
      | node => rfl
      | member =>
          cases hleft
          simp [onMember, Member.withAttribute, AttributeSet.including_including, pure, Except.pure]
  | removeAttribute key target =>
      cases target with
      | node => rfl
      | member =>
          cases hleft
          simp [onMember, AttributeSet.removeKey_removeKey, pure, Except.pure]
  | _ => rfl

/-! ## Nodes -/

/-- The rule gives back the node and each of its members, in whatever forest they are. -/
structure Spares (rule : Rule (Except Fault)) (node : Node) : Prop where
  onNode : ∀ forest, rule.onNode forest node = .ok (some node)
  onMember : ∀ forest holder, ∀ member ∈ Keyed.values node.members,
    rule.onMember forest holder member = .ok (some member)

theorem onNodeAll_single (rule : Rule (Except Fault)) (forest : Forest) (node : Node) :
    onNodeAll forest node [rule] = rule.onNode forest node := by
  rw [onNodeAll]
  rcases rule.onNode forest node with fault | left
  · rfl
  · cases left <;> rfl

theorem onMemberAll_single (rule : Rule (Except Fault)) (forest : Forest) (node : Node)
    (member : Member) :
    onMemberAll forest node member [rule] = rule.onMember forest node member := by
  rw [onMemberAll]
  rcases rule.onMember forest node member with fault | left
  · rfl
  · cases left <;> rfl

/-- Of the children of a node, the rule takes some or none away. -/
theorem Settling.mem_children (hrule : rule.Settling) {kept : Node}
    (hkept : rule.onNode forest node = .ok (some kept)) {entry : String × Node}
    (hentry : entry ∈ kept.children) : entry ∈ node.children := by
  cases hrule with
  | removeChild name =>
      cases hkept
      exact (List.mem_filter.mp hentry).1
  | removeNode => cases hkept
  | addAttribute value target => cases target <;> cases hkept <;> exact hentry
  | removeAttribute key target => cases target <;> cases hkept <;> exact hentry
  | _ =>
      cases hkept
      exact hentry

/-! ## Forests -/

/-- The rule leaves forests as a whole alone, or it leaves everything in them alone and
has nothing left to do to a forest after it. -/
theorem Settling.onTree_cases (hrule : rule.Settling) :
    (∀ forest, rule.onTree forest = .ok forest) ∨
      (∀ node, rule.Spares node) ∧ ∀ forest, forest.WellPlaced → ∃ tree,
        rule.onTree forest = .ok tree ∧ tree.WellPlaced ∧ rule.onTree tree = .ok tree := by
  cases hrule with
  | @addRoot root hroot =>
      refine .inr ⟨fun _ => ⟨fun _ => rfl, fun _ _ _ _ => rfl⟩, fun forest hforest => ?_⟩
      exact ⟨_, rfl, hforest.withRoot hroot, congrArg Except.ok (forest.withRoot_withRoot root)⟩
  | removeRoot name =>
      refine .inr ⟨fun _ => ⟨fun _ => rfl, fun _ _ _ _ => rfl⟩, fun forest hforest => ?_⟩
      exact ⟨_, rfl, hforest.withoutRoot name,
        congrArg Except.ok (forest.withoutRoot_withoutRoot name)⟩
  | _ => exact .inl fun _ => rfl

end Rule

namespace Walk

variable {step : PureStep} {tree : Forest}

theorem onNodeAll_unguarded (hguard : step.guard = none) (node : Node) (subject : Subject) :
    Rule.onNodeAll tree node (rulesFor [step] tree subject) = step.rule.onNode tree node := by
  rw [rulesFor_of_unguarded (List.forall_mem_singleton.mpr hguard), List.map_singleton,
    Rule.onNodeAll_single]

theorem onMemberAll_unguarded (hguard : step.guard = none) (node : Node) (member : Member)
    (subject : Subject) : Rule.onMemberAll tree node member (rulesFor [step] tree subject) =
      step.rule.onMember tree node member := by
  rw [rulesFor_of_unguarded (List.forall_mem_singleton.mpr hguard), List.map_singleton,
    Rule.onMemberAll_single]

theorem restsAt_of_spares (hguard : step.guard = none) {node : Node}
    (hspares : step.rule.Spares node) : RestsAt [step] tree node where
  onNode := by rw [onNodeAll_unguarded hguard, hspares.onNode]
  onMember member hmember := by
    rw [onMemberAll_unguarded hguard, hspares.onMember _ _ member hmember]

/-- What the rule left of a node it gives back once the node is put together, if it has
the members that it left as well and children of the names that it left. -/
theorem onNode_assemble {rule : Rule (Except Fault)} (hrule : rule.Settling) {node kept : Node}
    {path : Path} {members : List Member} {children : List Node}
    (hlabels : ∀ entry ∈ node.members, entry.1 = entry.2.name)
    (hkeys : ∀ entry ∈ node.children, entry.1 = entry.2.name)
    (hkept : rule.onNode tree node = .ok (some kept))
    (hmembers : (∀ member, rule.onMember tree kept member = .ok (some member)) →
      members = Keyed.values kept.members)
    (hchildren : ∀ child ∈ children, ∃ source ∈ Keyed.values kept.children, ∃ next,
      rule.onNode tree source = .ok (some next) ∧ child.name = next.name) (forest : Forest) :
    rule.onNode forest (assemble kept path members children) =
      .ok (some (assemble kept path members children)) := by
  cases hrule with
  | addMember member =>
      cases hkept
      obtain rfl := hmembers fun _ => rfl
      have hput : ∀ entry ∈ Keyed.put member.name member node.members, entry.1 = entry.2.name := by
        intro entry hentry
        rcases Keyed.mem_put hentry with rfl | hold
        · rfl
        · exact hlabels entry hold
      have hmaps : (assemble (node.withMember member) path
          (Keyed.values (node.withMember member).members) children).members =
          Keyed.put member.name member node.members :=
        Keyed.map_values_label hput
      refine congrArg (fun node => Except.ok (some node)) (Node.withMember_of_put ?_)
      rw [hmaps, Keyed.put_put]
  | removeChild name =>
      cases hkept
      refine congrArg (fun node => Except.ok (some node)) (Node.withoutChild_of_notMem ?_)
      -- A child of that name would have had it before, as the rule renames nothing.
      intro hname
      rw [Keyed.keys, assemble, List.map_map] at hname
      obtain ⟨child, hchild, hname⟩ := List.mem_map.mp hname
      obtain ⟨source, hsource, next, hnext, heq⟩ := hchildren child hchild
      cases hnext
      obtain ⟨entry, hentry, rfl⟩ := List.mem_map.mp hsource
      obtain ⟨hentry, hne⟩ := List.mem_filter.mp hentry
      have hkey : entry.1 = name := (hkeys entry hentry).trans (heq.symm.trans hname)
      simp [hkey] at hne
  | removeNode => cases hkept
  | renameNode name =>
      cases hkept
      rfl
  | setDocumentation documentation =>
      cases hkept
      rfl
  | addAttribute value target =>
      cases target with
      | node =>
          cases hkept
          simp [Rule.onNode, Node.withAttribute, assemble, AttributeSet.including_including, pure,
            Except.pure]
      | member => rfl
  | removeAttribute key target =>
      cases target with
      | node =>
          cases hkept
          simp [Rule.onNode, assemble, AttributeSet.removeKey_removeKey, pure, Except.pure]
      | member => rfl
  | _ => rfl

/-- Put together from what the rule left of it, of its members and of its children, a node
is one that the rule gives back with its members. -/
theorem spares_assemble (hguard : step.guard = none) (hrule : step.rule.Settling)
    {node kept : Node} {path : Path} {found : List (Member × Option Member)}
    {children : List Node} (hlabels : ∀ entry ∈ node.members, entry.1 = entry.2.name)
    (hkeys : ∀ entry ∈ node.children, entry.1 = entry.2.name)
    (hkept : step.rule.onNode tree node = .ok (some kept))
    (hfound : fates [step] tree node kept (Keyed.values kept.members) = .ok found)
    (hchildren : ∀ child ∈ children, ∃ source ∈ Keyed.values kept.children, ∃ next,
      step.rule.onNode tree source = .ok (some next) ∧ child.name = next.name) :
    step.rule.Spares (assemble kept path (found.filterMap Prod.snd) children) where
  onNode := by
    refine onNode_assemble hrule hlabels hkeys hkept (fun hsame => ?_) hchildren
    have hall : fates [step] tree node kept (Keyed.values kept.members) = .ok _ :=
      fates_eq_ok fun member _ => by
        rw [onMemberAll_unguarded hguard, hsame member]
    cases hfound.symm.trans hall
    rw [filterMap_fates, List.filterMap_some]
  onMember forest holder member hmember := by
    rw [values_members_assemble] at hmember
    obtain ⟨source, -, hsource⟩ := exists_of_mem_fates hfound hmember
    rw [onMemberAll_unguarded hguard] at hsource
    exact hrule.onMember_again hsource forest holder

/-- Everything in what is left of a node is given back, if keys were names in it. -/
theorem visit_spares (hguard : step.guard = none) (hrule : step.rule.Settling) {levels : Nat}
    {parent : Option Path} {taken : List String} {node left : Node} {tally : Tally}
    (hkeys : ∀ inner ∈ node.preorder, (∀ entry ∈ inner.members, entry.1 = entry.2.name) ∧
      ∀ entry ∈ inner.children, entry.1 = entry.2.name)
    (hvisit : visit [step] tree levels parent taken node = .ok (some left, tally)) :
    ∀ inner ∈ left.preorder, step.rule.Spares inner := by
  induction levels generalizing parent taken node left tally with
  | zero => cases hvisit
  | succ levels ih =>
      obtain ⟨kept, found, children, below, hkept, hfound, hchildren, rfl⟩ := visit_kept hvisit
      rw [onNodeAll_unguarded hguard] at hkept
      obtain ⟨hlabels, hself⟩ := hkeys node node.mem_preorder_self
      have hbelow : ∀ source ∈ Keyed.values kept.children, ∀ inner ∈ source.preorder,
          inner ∈ node.preorder := by
        intro source hsource inner hinner
        obtain ⟨entry, hentry, rfl⟩ := List.mem_map.mp hsource
        exact Node.mem_preorder_of_child (hrule.mem_children hkept hentry) hinner
      intro inner hinner
      rw [Node.preorder_eq, values_children_assemble] at hinner
      rcases List.mem_cons.mp hinner with rfl | hinner
      · refine spares_assemble hguard hrule hlabels hself hkept hfound fun child hchild => ?_
        obtain ⟨source, hsource, taken, tally, hleft⟩ := exists_of_mem_siblings hchildren hchild
        obtain ⟨next, hnext, hname⟩ := visit_name hleft
        rw [onNodeAll_unguarded hguard] at hnext
        exact ⟨source, hsource, next, hnext, hname⟩
      · obtain ⟨child, hchild, hinner⟩ := List.mem_flatMap.mp hinner
        obtain ⟨source, hsource, taken, tally, hleft⟩ := exists_of_mem_siblings hchildren hchild
        exact ih (fun inner hinner => hkeys inner (hbelow source hsource inner hinner)) hleft inner
          hinner

/-- Everything in what is left of the roots of a well placed forest is given back, and it
lies within the levels of the visit. -/
theorem siblings_spare (hguard : step.guard = none) (hrule : step.rule.Settling)
    (htree : tree.WellPlaced) {levels : Nat} {roots : List Node} {tally : Tally}
    (hroots : siblings (visit [step] tree levels none) [] tree.roots = .ok (roots, tally)) :
    ∀ node ∈ roots.flatMap Node.preorder, step.rule.Spares node ∧ node.depth < levels := by
  intro node hnode
  obtain ⟨root, hroot, hnode⟩ := List.mem_flatMap.mp hnode
  obtain ⟨source, hsource, taken, tally, hvisit⟩ := exists_of_mem_siblings hroots hroot
  have hkeys : ∀ inner ∈ source.preorder, (∀ entry ∈ inner.members, entry.1 = entry.2.name) ∧
      ∀ entry ∈ inner.children, entry.1 = entry.2.name := by
    obtain ⟨-, -, -, hkeys⟩ := Forest.wellPlaced_iff.mp htree
    exact fun inner hinner => hkeys inner (List.mem_flatMap.mpr ⟨source, hsource, hinner⟩)
  refine ⟨visit_spares hguard hrule hkeys hvisit node hnode, ?_⟩
  have hdepth := visit_deep hvisit node hnode
  rwa [show (Rewriter.placeUnder none root.name).depth = 0 from rfl, Nat.zero_add] at hdepth

/-- If everything in a well placed forest is given back, the visit leaves its roots, within
however many levels it comes through. -/
theorem roots_eq_of_spares (hguard : step.guard = none) (hspares : ∀ node, step.rule.Spares node)
    (htree : tree.WellPlaced) {levels : Nat} {roots : List Node} {tally : Tally}
    (hroots : siblings (visit [step] tree levels none) [] tree.roots = .ok (roots, tally)) :
    roots = tree.roots := by
  obtain ⟨extra, hdeep⟩ : ∃ extra, ∀ node ∈ tree.nodes, node.depth < levels + extra := by
    refine ⟨(tree.nodes.map Node.depth).max?.getD 0 + 1, fun node hnode => ?_⟩
    have hle : node.depth ≤ (tree.nodes.map Node.depth).max?.getD 0 :=
      List.le_max?_getD_of_mem (List.mem_map_of_mem hnode)
    omega
  have hmore := siblings_keeps (visit_keeps (Nat.le_add_right levels extra) none) [] tree.roots
    (by rw [hroots]; exact nofun)
  rw [hroots, roots_at_rest htree (fun node _ => restsAt_of_spares hguard (hspares node)) hdeep]
    at hmore
  cases hmore
  rfl

end Walk

namespace Rewriter

variable {step : PureStep} {forest : Forest} {rewriter : Rewriter} {first : Outcome}

/-! ## Whole rewrites -/

theorem settle_unguarded (hguard : step.guard = none) (forest : Forest) :
    Walk.settle forest [step] = step.rule.onTree forest >>= fun tree =>
      .ok (tree, if tree.same forest then 0 else 1) := by
  have hadmits : step.admits forest .tree = true := by rw [Step.admits, hguard]
  rw [Walk.settle, if_pos hadmits]
  refine congrArg _ (funext fun tree => ?_)
  simp [Walk.settle, pure, Except.pure]

/-- A rewrite by one rule goes on from a well placed forest to what is left of its roots. -/
theorem exists_tree_of_apply (hguard : step.guard = none) (hrule : step.rule.Settling)
    (hforest : forest.WellPlaced) (hfirst : rewriter.apply [step] forest = .ok first) :
    ∃ tree tally, tree.WellPlaced ∧
      Walk.siblings (Walk.visit [step] tree rewriter.levels none) [] tree.roots =
        .ok (first.forest.roots, tally) ∧
      step.rule.onTree first.forest = .ok first.forest := by
  have hroots {tree : Forest} (htree : step.rule.onTree forest = .ok tree) : ∃ tally,
      Walk.siblings (Walk.visit [step] tree rewriter.levels none) [] tree.roots =
        .ok (first.forest.roots, tally) := by
    have hsettle := settle_unguarded hguard forest
    rw [htree, ok_bind] at hsettle
    obtain ⟨tally, hleft, -⟩ :=
      (apply_eq_ok_iff_of_settle (List.cons_ne_nil _ _) hsettle).mp hfirst
    exact ⟨tally, hleft⟩
  rcases hrule.onTree_cases with halone | ⟨hspares, htrees⟩
  · obtain ⟨tally, hleft⟩ := hroots (halone forest)
    exact ⟨forest, tally, hforest, hleft, halone first.forest⟩
  · obtain ⟨tree, htree, hplaced, hagain⟩ := htrees forest hforest
    obtain ⟨tally, hleft⟩ := hroots htree
    have heq : first.forest = tree :=
      congrArg Forest.mk (Walk.roots_eq_of_spares hguard hspares hplaced hleft)
    exact ⟨tree, tally, hplaced, hleft, by rw [heq, hagain]⟩

/-- If a rewrite by one rule of the stock that adds no children comes through, the same
rewrite comes through with what it made, leaves that exactly as it is and counts no
change. -/
theorem apply_again (hguard : step.guard = none) (hrule : step.rule.Settling)
    (hforest : forest.WellPlaced) (hfirst : rewriter.apply [step] forest = .ok first) :
    rewriter.apply [step] first.forest =
        .ok { forest := first.forest, tally := { nodesVisited := first.forest.nodeCount } } ∧
      Tally.changed { nodesVisited := first.forest.nodeCount } = false := by
  have hplaced : first.forest.WellPlaced := wellPlaced_of_apply (List.cons_ne_nil _ _) hfirst
  obtain ⟨tree, tally, htree, hroots, hgives⟩ := exists_tree_of_apply hguard hrule hforest hfirst
  have hnodes := Walk.siblings_spare hguard hrule htree hroots
  refine ⟨apply_at_rest (List.cons_ne_nil _ _) hplaced ?_ (fun node hnode => ?_)
    fun node hnode => (hnodes node hnode).2, rfl⟩
  · exact List.forall_mem_singleton.mpr hgives
  · exact Walk.restsAt_of_spares hguard (hnodes node hnode).1

/-- The thicket with its member "m" under another name. -/
def thicketRenamed : Forest :=
  .ofRoots [((Node.named "r").withMember (.named "n")).withChild
    ((Node.named "c").withMember (.named "k")), .named "s"]

/-- The thicket with another root in place of its second one. -/
def thicketReplanted : Forest :=
  thicket.withRoot ((Node.named "s").withChild (.named "c"))

def renamingStep : PureStep :=
  .ofRule (.renameMember "m" "n")

def replantingStep : PureStep :=
  .ofRule (.addRoot ((Node.named "s").withChild (.named "c")))

/-- A second time the member keeps its name, and the root is there already. -/
theorem apply_again_thicket :
    (Rewriter.mk .refuse 4).apply [renamingStep] thicket =
        .ok ⟨thicketRenamed, { nodesVisited := 3, membersRewritten := 1 }⟩ ∧
      (Rewriter.mk .refuse 4).apply [renamingStep] thicketRenamed =
        .ok ⟨thicketRenamed, { nodesVisited := 3 }⟩ ∧
      (Rewriter.mk .refuse 4).apply [replantingStep] thicket =
        .ok ⟨thicketReplanted, { treeRewrites := 1, nodesVisited := 4 }⟩ ∧
      (Rewriter.mk .refuse 4).apply [replantingStep] thicketReplanted =
        .ok ⟨thicketReplanted, { nodesVisited := 4 }⟩ := by
  have hroot : (Forest.ofRoots [(Node.named "s").withChild (.named "c")]).WellPlaced := by
    refine Forest.wellPlaced_iff.mpr ⟨rfl, ?_, ?_, ?_⟩ <;> decide
  have hrenamed : (Rewriter.mk .refuse 4).apply [renamingStep] thicket = .ok _ :=
    (apply_eq_rewrite _ (List.cons_ne_nil _ _) thicket).trans rfl
  have hreplanted : (Rewriter.mk .refuse 4).apply [replantingStep] thicket = .ok _ :=
    (apply_eq_rewrite _ (List.cons_ne_nil _ _) thicket).trans rfl
  exact ⟨hrenamed, (apply_again rfl (.renameMember "m" "n") thicket_wellPlaced hrenamed).1,
    hreplanted, (apply_again rfl (.addRoot hroot) thicket_wellPlaced hreplanted).1⟩

end Rewriter

end TreePass
